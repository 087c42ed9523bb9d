import ScoreScript.Timeline.Basic

set_option autoImplicit false

namespace ScoreScript.Sequencer

inductive Call where
  -- The time is asked for.
  | clock
  -- A slot is reported, or the end if there is none.
  | progress (slot : Option Nat)
  | send (event : Event)
  -- The sequencer sleeps for some seconds.
  | sleep (seconds : Binary64)
deriving DecidableEq

/-- The surroundings with a state: what a call changes, whether it cancels, and the time. -/
structure Host (σ : Type) where
  call : Call → σ → σ × Bool
  time : σ → Binary64

/-- A player: the state of its surroundings, whether it is cancelled, the notes that sound, by channel
and note, and all calls so far, the last one first. -/
structure Player (σ : Type) where
  state : σ
  cancelled : Bool := false
  sounding : List (Int × Int) := []
  calls : List Call := []

variable {σ : Type}

def noteLe (a b : Int × Int) : Bool := a.1 < b.1 || (a.1 = b.1 && a.2 ≤ b.2)

namespace Player

def call (host : Host σ) (p : Player σ) (c : Call) : Player σ :=
  let (state, cancels) := host.call c p.state
  { p with state, cancelled := p.cancelled || cancels, calls := c :: p.calls }

def account (p : Player σ) (e : Event) : Player σ :=
  let note := (e.channel, e.note)
  match e.kind with
  | .noteOn => { p with sounding := if note ∈ p.sounding then p.sounding else p.sounding ++ [note] }
  | .noteOff => { p with sounding := p.sounding.filter (· ≠ note) }
  | _ => p

def dispatch (host : Host σ) (p : Player σ) (e : Event) : Player σ :=
  (p.account e).call host (.send e)

def playAtOnce (host : Host σ) (p : Player σ) (e : Event) : Player σ :=
  if !p.cancelled || e.isNoteOff then p.dispatch host e else p

def playDelayed (host : Host σ) (elapsed : Binary64) (p : Player σ) : List Event → Player σ
  | [] => p
  | e :: rest =>
    if p.cancelled then p
    else
      let p := p.call host (.sleep ((e.delay - elapsed) / 1000))
      (p.dispatch host e).playDelayed host e.delay rest

def atOnce (events : List Event) : List Event := events.filter fun e => !e.delay.isPositive

def delayed (events : List Event) : List Event :=
  (events.filter fun e => e.delay.isPositive).mergeSort fun a b => !Binary64.lt b.delay a.delay

def playSlot (host : Host σ) (p : Player σ) (events : List Event) : Player σ :=
  ((atOnce events).foldl (playAtOnce host) p).playDelayed host 0 (delayed events)

def reportProgress (host : Host σ) (listens : Bool) (p : Player σ) (slot : Option Nat) : Player σ :=
  if listens then p.call host (.progress slot) else p

def waitStep (host : Host σ) (step started : Binary64) (p : Player σ) : Player σ :=
  let p := p.call host .clock
  let remaining := step - (host.time p.state - started)
  if remaining.isPositive then p.call host (.sleep remaining) else p

def playSlots (host : Host σ) (listens : Bool) (step : Binary64) (slot : Nat) (p : Player σ) :
    List (List Event) → Player σ × Nat
  | [] => (p, 0)
  | events :: rest =>
    if p.cancelled then (p, 0)
    else
      let p := p.call host .clock
      let started := host.time p.state
      let p := if events = [] then p else p.reportProgress host listens (some slot)
      let p := p.playSlot host events
      if p.cancelled then (p, 1)
      else
        let (p, played) := (p.waitStep host step started).playSlots host listens step (slot + 1) rest
        (p, played + 1)

def release (host : Host σ) (p : Player σ) : Player σ :=
  let ends := (p.sounding.mergeSort noteLe).map fun note =>
    { kind := .noteOff, channel := note.1, note := note.2 : Event }
  { ends.foldl (fun p e => p.call host (.send e)) p with sounding := [] }

def run (host : Host σ) (listens : Bool) (step : Binary64) (slots : List (List Event))
    (p : Player σ) : Player σ × Nat :=
  let (p, played) := p.playSlots host listens step 0 slots
  let p := if p.cancelled then p.release host else p
  (p.reportProgress host listens none, played)

end Player

end ScoreScript.Sequencer
