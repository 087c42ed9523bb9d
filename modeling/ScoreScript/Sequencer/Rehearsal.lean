import ScoreScript.Sequencer.Basic

set_option autoImplicit false

namespace ScoreScript.Sequencer

/-- When a rehearsal is cancelled: within the call with a number, counted from one, or when a slot is
reported. -/
structure Cancellation where
  atSend : Option Int := none
  atSleep : Option Int := none
  atProgress : Option Nat := none

structure Rehearsal where
  now : Binary64 := 0
  sends : Nat := 0
  sleeps : Nat := 0

def Rehearsal.host (cost : Binary64) (cancel : Cancellation) : Host Rehearsal where
  time r := r.now
  call c r :=
    match c with
    | .clock => (r, false)
    | .progress slot => (r, slot.isSome && cancel.atProgress = slot)
    | .send _ =>
      ({ r with now := r.now + cost, sends := r.sends + 1 }, cancel.atSend = some (r.sends + 1 : Nat))
    | .sleep seconds =>
      ({ r with now := r.now + seconds, sleeps := r.sleeps + 1 },
        cancel.atSleep = some (r.sleeps + 1 : Nat))

structure Rehearsal.Report where
  played : Nat
  calls : List Call
  cancelled : Bool
  now : Binary64

def playRuns (host : Host Rehearsal) (listens : Bool) (step : Binary64) (slots : List (List Event))
    (p : Player Rehearsal) : Nat → List Rehearsal.Report
  | 0 => []
  | runs + 1 =>
    let (p, played) := { p with calls := [] }.run host listens step slots
    ⟨played, p.calls.reverse, p.cancelled, p.state.now⟩ :: playRuns host listens step slots p runs

def rehearse (host : Host Rehearsal) (listens : Bool) (t : Timeline) (p : Player Rehearsal)
    (runs : Nat) : Except Fault (List Rehearsal.Report) := do
  if runs = 0 then return []
  else return playRuns host listens (← t.stepDuration) t.slots p runs

end ScoreScript.Sequencer
