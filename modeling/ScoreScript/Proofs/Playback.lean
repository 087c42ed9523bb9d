import ScoreScript.Proofs.Cancellation
import ScoreScript.Proofs.Faults

set_option autoImplicit false

namespace ScoreScript

namespace Binary64

theorem ofWhole_failsJust (n : Int) :
    Fault.FailsJust (ofWhole n) .numberTooLarge ((ofInt n).isInfinite = true) where
  fails infinite := if_pos infinite
  works finite := ⟨ofInt n, if_neg finite⟩

end Binary64

def Timeline.IsRushed (t : Timeline) : Prop :=
  (0 < t.bpm ∧ 0 < t.stepsPerBeat) ∧
    ((Binary64.ofInt t.bpm).isInfinite = true ∨ (Binary64.ofInt t.stepsPerBeat).isInfinite = true)

theorem Timeline.stepDuration_failsJust (t : Timeline) :
    Fault.FailsJust t.stepDuration .numberTooLarge t.IsRushed := by
  unfold stepDuration IsRushed
  by_cases still : t.bpm ≤ 0 ∨ t.stepsPerBeat ≤ 0
  · rw [if_pos still]
    exact ⟨fun rushed => by omega, fun _ => ⟨0, rfl⟩⟩
  · have pace : 0 < t.bpm ∧ 0 < t.stepsPerBeat := by omega
    have divided : Fault.FailsJust
        (do return 60 / (← Binary64.ofWhole t.bpm) / (← Binary64.ofWhole t.stepsPerBeat)) .numberTooLarge
        ((Binary64.ofInt t.bpm).isInfinite = true ∨ (Binary64.ofInt t.stepsPerBeat).isInfinite = true) :=
      (Binary64.ofWhole_failsJust t.bpm).bind fun tempo _ =>
        (Binary64.ofWhole_failsJust t.stepsPerBeat).map fun steps => 60 / tempo / steps
    rw [if_neg still]
    exact ⟨fun rushed => divided.fails rushed.2,
      fun calm => divided.works fun rushed => calm ⟨pace, rushed⟩⟩

namespace Sequencer

namespace Call

def event? : Call → Option Event
  | send e => some e
  | _ => none

def report? : Call → Option (Option Nat)
  | progress slot => some slot
  | _ => none

def isHeard (c : Call) : Bool := c.event?.isSome || c.report?.isSome

end Call

def heard (calls : List Call) : List Call := calls.filter Call.isHeard

def sent (calls : List Call) : List Event := calls.filterMap Call.event?

def reported (calls : List Call) : List (Option Nat) := calls.filterMap Call.report?

theorem heard_append (first second : List Call) : heard (first ++ second) = heard first ++ heard second :=
  List.filter_append ..

theorem sent_append (first second : List Call) : sent (first ++ second) = sent first ++ sent second :=
  List.filterMap_append

theorem reported_append (first second : List Call) :
    reported (first ++ second) = reported first ++ reported second :=
  List.filterMap_append

theorem sent_heard (calls : List Call) : sent (heard calls) = sent calls := by
  rw [sent, heard, List.filterMap_filter]
  refine List.filterMap_congr fun c _ => ?_
  cases c <;> rfl

theorem reported_heard (calls : List Call) : reported (heard calls) = reported calls := by
  rw [reported, heard, List.filterMap_filter]
  refine List.filterMap_congr fun c _ => ?_
  cases c <;> rfl

def inOrder (events : List Event) : List Event := Player.atOnce events ++ Player.delayed events

def occupied (slot : Nat) (slots : List (List Event)) : List Nat :=
  ((slots.zipIdx slot).filter fun entry => entry.1 ≠ []).map Prod.snd

def slotProgram (listens : Bool) (slot : Nat) (events : List Event) : List Call :=
  (if listens = true ∧ events ≠ [] then [.progress (some slot)] else []) ++ (inOrder events).map .send

/-- What is to be heard of slots from an index on. -/
def program (listens : Bool) (slot : Nat) (slots : List (List Event)) : List Call :=
  (slots.zipIdx slot).flatMap fun entry => slotProgram listens entry.2 entry.1

def finale (listens : Bool) : List Call := if listens then [.progress none] else []

variable {listens : Bool} {slot : Nat}

theorem program_cons (events : List Event) (rest : List (List Event)) :
    program listens slot (events :: rest) =
      slotProgram listens slot events ++ program listens (slot + 1) rest := by
  simp [program, List.zipIdx_cons]

theorem sent_sends (events : List Event) : sent (events.map .send) = events := by
  simp [sent, Call.event?, Function.comp_def]

theorem reported_sends (events : List Event) : reported (events.map .send) = [] := by
  simp [reported, Call.report?]

theorem sent_program (slots : List (List Event)) :
    sent (program listens slot slots) = slots.flatMap inOrder := by
  induction slots generalizing slot with
  | nil => rfl
  | cons events rest ih =>
    have here : sent (slotProgram listens slot events) = inOrder events := by
      rw [slotProgram, sent_append, sent_sends]
      split <;> rfl
    rw [program_cons, sent_append, here, ih, List.flatMap_cons]

theorem reported_program (slots : List (List Event)) :
    reported (program listens slot slots) = if listens then (occupied slot slots).map some else [] := by
  induction slots generalizing slot with
  | nil => cases listens <;> rfl
  | cons events rest ih =>
    have here : reported (slotProgram listens slot events) =
        if listens = true ∧ events ≠ [] then [some slot] else [] := by
      rw [slotProgram, reported_append, reported_sends]
      split <;> rfl
    rw [program_cons, reported_append, here, ih]
    cases listens <;> by_cases empty : events = [] <;> simp [occupied, List.zipIdx_cons, empty]

theorem delayed_perm (events : List Event) :
    (Player.delayed events).Perm (events.filter fun e => e.delay.isPositive) :=
  List.mergeSort_perm _ _

namespace Player

variable {σ : Type} {host : Host σ} {p q r : Player σ} {first second : List Call}

def Plays (host : Host σ) (program : List Call) (p q : Player σ) : Prop :=
  ∃ calls, q = p.after host calls ∧ (heard calls).Sublist program ∧
    (q.cancelled = false → heard calls = program)

theorem Plays.refl (p : Player σ) : Plays host [] p p := ⟨[], rfl, List.Sublist.refl _, fun _ => rfl⟩

theorem plays_of_cancelled (cancelled : p.cancelled = true) (program : List Call) : Plays host program p p := by
  refine ⟨[], rfl, List.nil_sublist _, fun free => ?_⟩
  rw [cancelled] at free
  cases free

theorem Plays.free (plays : Plays host first p q) (free : q.cancelled = false) : p.cancelled = false := by
  obtain ⟨calls, rfl, -⟩ := plays
  by_contra cancelled
  rw [after_cancelled calls (by simpa using cancelled)] at free
  cases free

theorem Plays.trans (plays : Plays host first p q) (further : Plays host second q r) :
    Plays host (first ++ second) p r := by
  have free := further.free
  obtain ⟨calls, rfl, part, whole⟩ := plays
  obtain ⟨later, rfl, part', whole'⟩ := further
  refine ⟨calls ++ later, (after_append calls later).symm, ?_, fun free' => ?_⟩
  · rw [heard_append]
    exact part.append part'
  · rw [heard_append, whole (free free'), whole' free']

theorem plays_follow (c : Call) : Plays host (heard [c]) p (p.follow host c) :=
  ⟨[c], rfl, List.Sublist.refl _, fun _ => rfl⟩

theorem plays_playAtOnce (events : List Event) :
    Plays host (events.map .send) p (events.foldl (playAtOnce host) p) := by
  induction events generalizing p with
  | nil => exact .refl p
  | cons e rest ih =>
    have here : Plays host [.send e] p (p.playAtOnce host e) := by
      unfold playAtOnce
      split
      · exact plays_follow (.send e)
      next skipped =>
        -- ends of notes are always sent, so the event is left out because the player is cancelled
        have cancelled : p.cancelled = true := by
          simp only [Bool.or_eq_true, not_or, Bool.not_eq_true, Bool.not_eq_false'] at skipped
          exact skipped.1
        exact plays_of_cancelled cancelled _
    exact here.trans ih

theorem plays_playDelayed (elapsed : Binary64) (events : List Event) :
    Plays host (events.map .send) p (p.playDelayed host elapsed events) := by
  induction events generalizing p elapsed with
  | nil => exact .refl p
  | cons e rest ih =>
    rw [playDelayed]
    split
    next cancelled => exact plays_of_cancelled cancelled _
    next =>
      have waited : Plays host [] p (p.call host (.sleep ((e.delay - elapsed) / 1000))) :=
        plays_follow (.sleep _)
      exact (waited.trans (plays_follow (.send e))).trans (ih e.delay)

theorem plays_playSlot (events : List Event) :
    Plays host ((inOrder events).map .send) p (p.playSlot host events) := by
  rw [inOrder, List.map_append]
  exact (plays_playAtOnce _).trans (plays_playDelayed 0 _)

theorem plays_waitStep (step started : Binary64) : Plays host [] p (p.waitStep host step started) := by
  have asked : Plays host [] p (p.call host .clock) := plays_follow .clock
  unfold waitStep
  dsimp only
  split
  · exact asked.trans (plays_follow (.sleep _))
  · exact asked

theorem plays_announced (listens : Bool) (slot : Nat) (events : List Event) :
    Plays host (if listens = true ∧ events ≠ [] then [.progress (some slot)] else []) p
      (if events = [] then p else p.reportProgress host listens (some slot)) := by
  by_cases empty : events = []
  · rw [if_pos empty, if_neg fun both => both.2 empty]
    exact .refl p
  · rw [if_neg empty]
    cases listens with
    | false => exact .refl p
    | true =>
      rw [if_pos ⟨rfl, empty⟩]
      exact plays_follow (.progress (some slot))

theorem plays_playSlots (step : Binary64) (slots : List (List Event)) :
    Plays host (program listens slot slots) p (p.playSlots host listens step slot slots).1 := by
  induction slots generalizing p slot with
  | nil => exact .refl p
  | cons events rest ih =>
    rw [playSlots]
    split
    next cancelled => exact plays_of_cancelled cancelled _
    next =>
      have asked : Plays host [] p (p.call host .clock) := plays_follow .clock
      have announced : Plays host _ p _ := asked.trans (plays_announced listens slot events)
      rw [program_cons]
      dsimp only
      generalize (if events = [] then p.call host .clock
        else (p.call host .clock).reportProgress host listens (some slot)) = now at announced ⊢
      have played : Plays host (slotProgram listens slot events) p (now.playSlot host events) :=
        announced.trans (plays_playSlot events)
      -- the player stops behind the slot, or waits and goes on
      split
      next cancelled => exact played.trans (plays_of_cancelled cancelled _)
      next => exact played.trans ((plays_waitStep step _).trans ih)

theorem snd_playSlots (step : Binary64) (slots : List (List Event))
    (free : (p.playSlots host listens step slot slots).1.cancelled = false) :
    (p.playSlots host listens step slot slots).2 = slots.length := by
  induction slots generalizing p slot with
  | nil => rfl
  | cons events rest ih =>
    rw [playSlots] at free ⊢
    by_cases stopped : p.cancelled = true
    · rw [if_pos stopped, stopped] at free
      cases free
    · rw [if_neg stopped] at free ⊢
      dsimp only at free ⊢
      generalize (if events = [] then p.call host .clock
        else (p.call host .clock).reportProgress host listens (some slot)) = now at free ⊢
      split
      next cancelled =>
        rw [if_pos cancelled, cancelled] at free
        cases free
      next going =>
        rw [if_neg going] at free
        rw [List.length_cons, ih free]

def releasing (p : Player σ) : List Call := if p.cancelled then p.ends.map .send else []

theorem isNoteOff_of_mem_releasing {c : Call} (member : c ∈ p.releasing) :
    ∃ e, c = .send e ∧ e.isNoteOff = true := by
  unfold releasing at member
  split at member
  · obtain ⟨e, listed, rfl⟩ := List.mem_map.1 member
    obtain ⟨note, -, rfl⟩ := List.mem_map.1 listed
    exact ⟨_, rfl, rfl⟩
  · cases member

theorem reported_releasing (p : Player σ) : reported p.releasing = [] := by
  unfold releasing
  split
  · exact reported_sends _
  · rfl

theorem run_eq_after (step : Binary64) (slots : List (List Event)) :
    (p.run host listens step slots).1 =
      (p.playSlots host listens step 0 slots).1.after host
        ((p.playSlots host listens step 0 slots).1.releasing ++ finale listens) := by
  unfold run releasing finale
  dsimp only
  split
  · rw [release_eq_after, after_append]
    cases listens <;> rfl
  · cases listens <;> rfl

structure PlaysAll (listens : Bool) (slots : List (List Event)) (calls : List Call) (played : Nat) : Prop where
  heard : heard calls = program listens 0 slots ++ finale listens
  sent : sent calls = slots.flatMap inOrder
  reported : reported calls = if listens then (occupied 0 slots).map some ++ [none] else []
  played : played = slots.length

structure PlaysSome (listens : Bool) (slots : List (List Event)) (way release : List Call) : Prop where
  sent : (sent way).Sublist (slots.flatMap inOrder)
  ends : ∀ c ∈ release, ∃ e, c = .send e ∧ e.isNoteOff = true
  reported : ∃ earlier : List Nat, earlier.Sublist (occupied 0 slots) ∧
    reported (way ++ release ++ finale listens) = if listens then earlier.map some ++ [none] else []

theorem reported_run {release : List Call} (silent : reported release = []) (way : List Call) :
    reported (way ++ release ++ finale listens) = reported (heard way) ++ reported (finale listens) := by
  rw [reported_append, reported_append, silent, List.append_nil, reported_heard]

theorem playsAll_of_heard {slots : List (List Event)} {way : List Call} {played : Nat}
    (whole : heard way = program listens 0 slots) (through : played = slots.length) :
    PlaysAll listens slots (way ++ [] ++ finale listens) played where
  heard := by
    have kept : heard (finale listens) = finale listens := by cases listens <;> rfl
    rw [List.append_nil, heard_append, whole, kept]
  sent := by
    have none : sent (finale listens) = [] := by cases listens <;> rfl
    rw [List.append_nil, sent_append, none, List.append_nil, ← sent_heard, whole, sent_program]
  reported := by
    rw [reported_run rfl, whole, reported_program]
    cases listens <;> rfl
  played := through

theorem playsSome_of_heard {slots : List (List Event)} {way : List Call}
    (part : (heard way).Sublist (program listens 0 slots)) (q : Player σ) :
    PlaysSome listens slots way q.releasing where
  sent := by
    have whole : sent (program listens 0 slots) = slots.flatMap inOrder := sent_program slots
    rw [← sent_heard, ← whole]
    exact part.filterMap _
  ends c member := isNoteOff_of_mem_releasing member
  reported := by
    have within : (reported (heard way)).Sublist (reported (program listens 0 slots)) := part.filterMap _
    rw [reported_run q.reported_releasing]
    rw [reported_program] at within
    cases listens with
    | false => exact ⟨[], List.nil_sublist _, by simpa [finale, reported] using within⟩
    | true =>
      obtain ⟨earlier, listed, same⟩ := List.sublist_map_iff.1 within
      exact ⟨earlier, listed, by rw [same]; rfl⟩

/-- A player cannot start on a timeline whose pace is beyond double precision. On any other timeline it sends
the events of the program and nothing else, reports the slots that have events, each before its events, and
then the end, and it plays all slots, unless it is cancelled. If it is, it sends a part of these events and ends
notes behind them, and the end is still reported once. -/
theorem plays_every_event (host : Host σ) (listens : Bool) (t : Timeline) (p : Player σ) :
    Fault.FailsJust t.stepDuration .numberTooLarge t.IsRushed ∧
    (∀ events ∈ t.slots, ∃ late, late.Perm (events.filter fun e => e.delay.isPositive) ∧
      inOrder events = (events.filter fun e => !e.delay.isPositive) ++ late) ∧
    ∀ step, t.stepDuration = .ok step → ∃ way release,
      (p.playSlots host listens step 0 t.slots).1.calls = way.reverse ++ p.calls ∧
      (p.run host listens step t.slots).1.calls = (way ++ release ++ finale listens).reverse ++ p.calls ∧
      ((p.run host listens step t.slots).1.cancelled = false →
        PlaysAll listens t.slots (way ++ release ++ finale listens) (p.run host listens step t.slots).2) ∧
      PlaysSome listens t.slots way release := by
  refine ⟨t.stepDuration_failsJust, fun events _ => ⟨_, delayed_perm events, rfl⟩, fun step _ => ?_⟩
  have plays : Plays host (program listens 0 t.slots) p (p.playSlots host listens step 0 t.slots).1 :=
    plays_playSlots step t.slots
  obtain ⟨way, played, part, whole⟩ := plays
  have calls : (p.playSlots host listens step 0 t.slots).1.calls = way.reverse ++ p.calls := by
    rw [played, calls_after]
  refine ⟨way, (p.playSlots host listens step 0 t.slots).1.releasing, calls, ?_, fun free => ?_,
    playsSome_of_heard part _⟩
  · rw [run_eq_after, calls_after, calls]
    simp
  · have going : (p.playSlots host listens step 0 t.slots).1.cancelled = false := by
      by_contra cancelled
      rw [run_eq_after, after_cancelled _ (by simpa using cancelled)] at free
      cases free
    have none : (p.playSlots host listens step 0 t.slots).1.releasing = [] := by simp [releasing, going]
    rw [none]
    exact playsAll_of_heard (whole going) (snd_playSlots step t.slots going)

def strummedRun (cancel : Cancellation) : Player Rehearsal × Nat :=
  ({ state := {} } : Player Rehearsal).run (Rehearsal.host 0 cancel) true
    (60 / Binary64.ofInt 120 / Binary64.ofInt 12) strummed

theorem plays_every_event_of_strummed :
    ({ slots := strummed } : Timeline).stepDuration = .ok (60 / Binary64.ofInt 120 / Binary64.ofInt 12) ∧
      (strummedRun {}).1.cancelled = false ∧
      PlaysAll true strummed (strummedRun {}).1.calls.reverse (strummedRun {}).2 ∧
      ∃ way release, (strummedRun { atSleep := some 1 }).1.calls.reverse = way ++ release ++ finale true ∧
        PlaysSome true strummed way release := by
  have timed : ({ slots := strummed } : Timeline).stepDuration =
      .ok (60 / Binary64.ofInt 120 / Binary64.ofInt 12) := by decide +kernel
  have going : (strummedRun {}).1.cancelled = false := by decide +kernel
  obtain ⟨way, release, -, free, all, -⟩ :=
    (plays_every_event (Rehearsal.host 0 {}) true { slots := strummed } { state := {} }).2.2 _ timed
  obtain ⟨cutWay, cutRelease, -, cut, -, part⟩ :=
    (plays_every_event (Rehearsal.host 0 { atSleep := some 1 }) true { slots := strummed }
      { state := {} }).2.2 _ timed
  refine ⟨timed, going, ?_, cutWay, cutRelease, ?_, part⟩
  · rw [strummedRun, free, List.append_nil, List.reverse_reverse]
    exact all going
  · rw [strummedRun, cut, List.append_nil, List.reverse_reverse]

def rapid : Timeline := { slots := [[{ kind := .noteOn, note := 60 }]], bpm := 10 ^ 400 }

theorem rapid_not_played :
    rehearse (Rehearsal.host 0 {}) true rapid { state := {} } 1 = .error .numberTooLarge := by
  have unplayable : rapid.stepDuration = .error .numberTooLarge :=
    rapid.stepDuration_failsJust.fails ⟨by decide +kernel, .inl (by decide +kernel)⟩
  rw [rehearse, if_neg one_ne_zero, unplayable]
  rfl

end Player

end Sequencer

end ScoreScript
