import ScoreScript.Proofs.Sounding
import ScoreScript.Sequencer.Rehearsal

set_option autoImplicit false

namespace ScoreScript.Sequencer

namespace Call

def noteEvent? (key : Int × Int) : Call → Option Event.Kind
  | .send e =>
    if (e.kind = .noteOn ∨ e.kind = .noteOff) ∧ (e.channel, e.note) = key then some e.kind else none
  | _ => none

end Call

namespace Player

variable {σ : Type} {host : Host σ} {p : Player σ}

/-! ### Moments of a run -/

def follow (host : Host σ) (p : Player σ) : Call → Player σ
  | .send e => p.dispatch host e
  | c => p.call host c

def after (host : Host σ) (p : Player σ) (calls : List Call) : Player σ := calls.foldl (follow host) p

@[simp] theorem after_nil : p.after host [] = p := rfl

@[simp] theorem after_cons (c : Call) (rest : List Call) :
    p.after host (c :: rest) = (p.follow host c).after host rest := rfl

@[simp] theorem after_append (first rest : List Call) :
    p.after host (first ++ rest) = (p.after host first).after host rest :=
  List.foldl_append

theorem calls_account (e : Event) : (p.account e).calls = p.calls := by
  unfold account
  cases e.kind <;> rfl

theorem calls_follow (c : Call) : (p.follow host c).calls = c :: p.calls := by
  cases c with
  | send e =>
    change Call.send e :: (p.account e).calls = _
    rw [calls_account]
  | clock | progress | sleep => rfl

theorem calls_after (calls : List Call) : (p.after host calls).calls = calls.reverse ++ p.calls := by
  induction calls generalizing p with
  | nil => rfl
  | cons c rest ih => simp [ih, calls_follow]

theorem follow_cancelled (c : Call) (cancelled : p.cancelled = true) :
    (p.follow host c).cancelled = true := by
  cases c with
  | send e =>
    change ((p.account e).cancelled || _) = true
    have kept : (p.account e).cancelled = p.cancelled := by
      unfold account
      cases e.kind <;> rfl
    simp [kept, cancelled]
  | clock | progress | sleep => simp [follow, call, cancelled]

theorem after_cancelled (calls : List Call) (cancelled : p.cancelled = true) :
    (p.after host calls).cancelled = true := by
  induction calls generalizing p with
  | nil => exact cancelled
  | cons c rest ih => exact ih (follow_cancelled c cancelled)

def HasDelayed (slots : List (List Event)) (e : Event) : Prop :=
  ∃ events ∈ slots, e ∈ events ∧ e.delay.isPositive = true

inductive Move (slots : List (List Event)) (p : Player σ) : List Call → Prop where
  -- It asks for the time, reports a slot, or waits for the next one.
  | quiet {c : Call} (unsent : ∀ e, c ≠ .send e) : Move slots p [c]
  | send {e : Event} (allowed : p.cancelled = false ∨ e.isNoteOff = true) : Move slots p [.send e]
  -- It waits for an event and sends it, whether or not it is cancelled meanwhile.
  | wait {e : Event} {seconds : Binary64} (free : p.cancelled = false) (late : HasDelayed slots e) :
    Move slots p [.sleep seconds, .send e]

inductive Walk (host : Host σ) (slots : List (List Event)) : Player σ → List Call → Prop where
  | stop (p : Player σ) : Walk host slots p []
  | move {p : Player σ} {calls rest : List Call} (move : Move slots p calls)
    (further : Walk host slots (p.after host calls) rest) : Walk host slots p (calls ++ rest)

theorem Walk.append {slots : List (List Event)} {first rest : List Call} (start : Walk host slots p first)
    (further : Walk host slots (p.after host first) rest) : Walk host slots p (first ++ rest) := by
  induction start with
  | stop => exact further
  | move move _ ih =>
    rw [List.append_assoc]
    exact .move move (ih (by simpa using further))

def Reaches (host : Host σ) (slots : List (List Event)) (p q : Player σ) : Prop :=
  ∃ calls, Walk host slots p calls ∧ p.after host calls = q

section

variable {slots : List (List Event)} {q r : Player σ}

theorem Reaches.refl (p : Player σ) : Reaches host slots p p := ⟨[], .stop p, rfl⟩

theorem Reaches.trans (first : Reaches host slots p q) (second : Reaches host slots q r) :
    Reaches host slots p r := by
  obtain ⟨calls, walk, rfl⟩ := first
  obtain ⟨rest, further, rfl⟩ := second
  exact ⟨calls ++ rest, walk.append further, after_append calls rest⟩

theorem Move.reaches {calls : List Call} (move : Move slots p calls) :
    Reaches host slots p (p.after host calls) :=
  ⟨calls, by simpa using Walk.move move (.stop (p.after host calls)), rfl⟩

theorem reaches_call {c : Call} (unsent : ∀ e, c ≠ .send e) :
    Reaches host slots p (p.call host c) := by
  have next : p.after host [c] = p.call host c := by
    cases c with
    | send e => exact absurd rfl (unsent e)
    | clock | progress | sleep => rfl
  rw [← next]
  exact (Move.quiet unsent).reaches

theorem reaches_playAtOnce (e : Event) : Reaches host slots p (p.playAtOnce host e) := by
  unfold playAtOnce
  by_cases allowed : (!p.cancelled || e.isNoteOff) = true
  · rw [if_pos allowed]
    exact (Move.send (by simpa using allowed)).reaches
  · rw [if_neg allowed]
    exact .refl p

theorem reaches_playDelayed {elapsed : Binary64} {events : List Event}
    (late : ∀ e ∈ events, HasDelayed slots e) :
    Reaches host slots p (p.playDelayed host elapsed events) := by
  induction events generalizing p elapsed with
  | nil => exact .refl p
  | cons e rest ih =>
    rw [playDelayed]
    by_cases cancelled : p.cancelled = true
    · rw [if_pos cancelled]
      exact .refl p
    · rw [if_neg cancelled]
      have wait : Move slots p [.sleep ((e.delay - elapsed) / 1000), .send e] :=
        .wait (by simpa using cancelled) (late e (by simp))
      exact wait.reaches.trans (ih fun other member => late other (by simp [member]))

theorem reaches_playSlot {events : List Event} (member : events ∈ slots) :
    Reaches host slots p (p.playSlot host events) := by
  have atOnce (list : List Event) : Reaches host slots p (list.foldl (playAtOnce host) p) := by
    induction list generalizing p with
    | nil => exact .refl p
    | cons e rest ih => exact (reaches_playAtOnce e).trans ih
  apply (atOnce _).trans
  apply reaches_playDelayed
  intro e late
  simp only [delayed, List.mem_mergeSort, List.mem_filter] at late
  exact ⟨events, member, late⟩

theorem reaches_reportProgress (listens : Bool) (slot : Option Nat) :
    Reaches host slots p (p.reportProgress host listens slot) := by
  cases listens with
  | false => exact .refl p
  | true => exact reaches_call (by simp)

theorem reaches_waitStep (step started : Binary64) :
    Reaches host slots p (p.waitStep host step started) := by
  have asked : Reaches host slots p (p.call host .clock) := reaches_call (by simp)
  unfold waitStep
  dsimp only
  split
  · exact asked.trans (reaches_call (by simp))
  · exact asked

theorem reaches_playSlots (listens : Bool) (step : Binary64) (slot : Nat) {rest : List (List Event)}
    (inside : ∀ events ∈ rest, events ∈ slots) :
    Reaches host slots p (p.playSlots host listens step slot rest).1 := by
  induction rest generalizing p slot with
  | nil => exact .refl p
  | cons events later ih =>
    have asked : Reaches host slots p (p.call host .clock) := reaches_call (by simp)
    have reported : Reaches host slots p
        (if events = [] then p.call host .clock
          else (p.call host .clock).reportProgress host listens (some slot)) := by
      split
      · exact asked
      · exact asked.trans (reaches_reportProgress listens _)
    have played := reported.trans (reaches_playSlot (inside events (by simp)))
    rw [playSlots]
    by_cases stopped : p.cancelled = true
    · rw [if_pos stopped]
      exact .refl p
    · rw [if_neg stopped]
      dsimp only
      generalize (if events = [] then p.call host .clock
        else (p.call host .clock).reportProgress host listens (some slot)) = now at played ⊢
      split
      · exact played
      · have waited := played.trans (reaches_waitStep step (host.time (p.call host .clock).state))
        exact waited.trans (ih (slot + 1) fun other member => inside other (by simp [member]))

end

/-! ### The release -/

def endOf (note : Int × Int) : Event := { kind := .noteOff, channel := note.1, note := note.2 }

def ends (p : Player σ) : List Event := (p.sounding.mergeSort noteLe).map endOf

/-- The player within its release, when some ends have been sent; the account is cleared after the last. -/
def sendEnds (host : Host σ) (p : Player σ) (sent : List (Int × Int)) : Player σ :=
  (sent.map endOf).foldl (fun p e => p.call host (.send e)) p

theorem release_eq_sendEnds :
    p.release host = { p.sendEnds host (p.sounding.mergeSort noteLe) with sounding := [] } := rfl

@[simp] theorem sendEnds_nil : p.sendEnds host [] = p := rfl

@[simp] theorem sounding_sendEnds (sent : List (Int × Int)) :
    (p.sendEnds host sent).sounding = p.sounding := by
  induction sent generalizing p with
  | nil => rfl
  | cons note rest ih => exact ih

theorem sendEnds_withSounding (sent notes : List (Int × Int)) :
    ({ p with sounding := notes } : Player σ).sendEnds host sent =
      { p.sendEnds host sent with sounding := notes } := by
  induction sent generalizing p with
  | nil => rfl
  | cons note rest ih => exact ih (p := p.call host (.send (endOf note)))

theorem after_ends (notes : List (Int × Int)) :
    p.after host ((notes.map endOf).map .send) =
      { p.sendEnds host notes with sounding := p.sounding.filter (· ∉ notes) } := by
  induction notes generalizing p with
  | nil => simp
  | cons note rest ih =>
    have filtered : p.sounding.filter (· ∉ note :: rest) =
        (p.sounding.filter (· ≠ note)).filter (· ∉ rest) := by
      rw [List.filter_filter]
      apply List.filter_congr
      intro key _
      simp [not_or, Bool.and_comm]
    rw [filtered, ← sendEnds_withSounding]
    simp only [List.map_cons, after_cons, ih, ← sendEnds_withSounding]
    rfl

theorem release_eq_after : p.release host = p.after host (p.ends.map .send) := by
  have none : p.sounding.filter (· ∉ p.sounding.mergeSort noteLe) = [] := by
    simp [List.mem_mergeSort]
  rw [ends, after_ends, none]
  rfl

theorem reaches_release {slots : List (List Event)} : Reaches host slots p (p.release host) := by
  have sent (list : List Event) (ending : ∀ e ∈ list, e.isNoteOff = true) :
      Reaches host slots p (p.after host (list.map .send)) := by
    induction list generalizing p with
    | nil => exact .refl p
    | cons e rest ih =>
      have first : Move slots p [.send e] := .send (.inr (ending e (by simp)))
      exact first.reaches.trans (ih fun other member => ending other (by simp [member]))
  rw [release_eq_after]
  apply sent
  intro e member
  obtain ⟨note, -, rfl⟩ := List.mem_map.1 member
  rfl

theorem reaches_run (listens : Bool) (step : Binary64) (slots : List (List Event)) (p : Player σ) :
    Reaches host slots p (p.run host listens step slots).1 := by
  have played : Reaches host slots p (p.playSlots host listens step 0 slots).1 :=
    reaches_playSlots listens step 0 fun _ member => member
  have released : Reaches host slots p
      (if (p.playSlots host listens step 0 slots).1.cancelled then
        (p.playSlots host listens step 0 slots).1.release host
      else (p.playSlots host listens step 0 slots).1) := by
    split
    · exact played.trans reaches_release
    · exact played
  exact released.trans (reaches_reportProgress listens none)

/-! ### The account of a run -/

def IsAccurate (p : Player σ) : Prop :=
  ∀ key, key ∈ p.sounding ↔ p.calls.findSome? (·.noteEvent? key) = some .noteOn

theorem IsAccurate.follow (accurate : p.IsAccurate) (c : Call) : (p.follow host c).IsAccurate := by
  intro key
  rw [calls_follow, List.findSome?_cons]
  cases c with
  | send e =>
    have counted := mem_sounding_account p e key
    change key ∈ (p.account e).sounding ↔ _
    rw [counted, Call.noteEvent?]
    by_cases same : (e.channel, e.note) = key
    · subst same
      cases kind : e.kind <;> simp [accurate _]
    · cases kind : e.kind <;> simp [same, Ne.symm same, accurate key]
  | clock | progress | sleep => exact accurate key

theorem IsAccurate.after (accurate : p.IsAccurate) (calls : List Call) :
    (p.after host calls).IsAccurate := by
  induction calls generalizing p with
  | nil => exact accurate
  | cons c rest ih => exact ih (accurate.follow c)

theorem noteEvent?_cases {key : Int × Int} {calls : List Call} {kind : Event.Kind}
    (last : calls.findSome? (·.noteEvent? key) = some kind) : kind = .noteOn ∨ kind = .noteOff := by
  obtain ⟨c, -, found⟩ := List.exists_of_findSome?_eq_some last
  cases c with
  | send e =>
    rw [Call.noteEvent?] at found
    split at found
    next isNote =>
      cases found
      exact isNote.1
    next => cases found
  | clock | progress | sleep => cases found

theorem run_of_cancelled (listens : Bool) (step : Binary64) (slots : List (List Event))
    (cancelled : (p.playSlots host listens step 0 slots).1.cancelled = true) :
    (p.run host listens step slots).1 =
      ((p.playSlots host listens step 0 slots).1.release host).reportProgress host listens none := by
  unfold run
  dsimp only
  rw [if_pos cancelled]

theorem sounding_run (listens : Bool) (step : Binary64) (slots : List (List Event))
    (cancelled : (p.playSlots host listens step 0 slots).1.cancelled = true) :
    (p.run host listens step slots).1.sounding = [] := by
  rw [run_of_cancelled listens step slots cancelled]
  cases listens <;> rfl

theorem noteEvent?_of_sendEnds (host : Host σ) (accurate : p.IsAccurate) (sent : List (Int × Int))
    (key : Int × Int) :
    (p.sendEnds host sent).calls.findSome? (·.noteEvent? key) = some .noteOn ↔
      key ∈ p.sounding ∧ key ∉ sent := by
  have account : (p.after host ((sent.map endOf).map Call.send)).IsAccurate := accurate.after _
  have counted := account key
  rw [after_ends] at counted
  simpa using counted.symm

theorem isAccurate_sendEnds_iff (host : Host σ) (accurate : p.IsAccurate) {sent : List (Int × Int)}
    (held : sent ⊆ p.sounding) : (p.sendEnds host sent).IsAccurate ↔ sent = [] := by
  constructor
  · intro right
    refine List.eq_nil_iff_forall_not_mem.2 fun key ended => ?_
    have starts := (right key).1 (by simpa using held ended)
    exact ((noteEvent?_of_sendEnds host accurate sent key).1 starts).2 ended
  · rintro rfl
    exact accurate

/-- At every moment on the way through the slots, and at the end of the run, the notes that sound are those
whose last event starts them, and if the run is cancelled on the way, each note that was started has been
ended at the end. Within the release the account keeps the notes that have been ended. -/
theorem ended_of_cancelled (host : Host σ) (listens : Bool) (step : Binary64)
    (slots : List (List Event)) {p : Player σ} (accurate : p.IsAccurate) :
    (p.run host listens step slots).1.IsAccurate ∧
    ∃ loop, (p.playSlots host listens step 0 slots).1 = p.after host loop ∧
      (∀ earlier, earlier <+: loop → (p.after host earlier).IsAccurate ∧
        ((p.after host earlier).cancelled = true → ∀ key kind,
          (p.run host listens step slots).1.calls.findSome? (·.noteEvent? key) = some kind →
            kind = .noteOff)) ∧
      ∀ sent, sent <+: (p.after host loop).sounding.mergeSort noteLe →
        (((p.after host loop).sendEnds host sent).IsAccurate ↔ sent = []) ∧
        ∀ key, ((p.after host loop).sendEnds host sent).calls.findSome? (·.noteEvent? key) =
            some .noteOn ↔
          key ∈ ((p.after host loop).sendEnds host sent).sounding ∧ key ∉ sent := by
  have run : Reaches host slots p (p.run host listens step slots).1 := reaches_run listens step slots p
  have way : Reaches host slots p (p.playSlots host listens step 0 slots).1 :=
    reaches_playSlots listens step 0 fun _ member => member
  obtain ⟨calls, -, whole⟩ := run
  obtain ⟨loop, -, played⟩ := way
  have atEnd : (p.run host listens step slots).1.IsAccurate := by
    rw [← whole]
    exact accurate.after calls
  refine ⟨atEnd, loop, played.symm, ?_, ?_⟩
  · intro earlier before
    refine ⟨accurate.after earlier, fun cancelled key kind last => ?_⟩
    obtain ⟨rest, rfl⟩ := before
    have stopped : (p.playSlots host listens step 0 slots).1.cancelled = true := by
      rw [← played, after_append]
      exact after_cancelled rest cancelled
    have unheld : key ∉ (p.run host listens step slots).1.sounding := by
      simp [sounding_run listens step slots stopped]
    rcases noteEvent?_cases last with rfl | ended
    · exact absurd ((atEnd key).2 last) unheld
    · exact ended
  · intro sent first
    have held : sent ⊆ (p.after host loop).sounding :=
      fun key ended => List.mem_mergeSort.1 (first.subset ended)
    refine ⟨isAccurate_sendEnds_iff host (accurate.after loop) held, fun key => ?_⟩
    rw [noteEvent?_of_sendEnds host (accurate.after loop), sounding_sendEnds]

def strummed : List (List Event) :=
  [[{ kind := .controlChange, control := 7, value := 100 }, { kind := .noteOn, note := 60 },
    { kind := .noteOn, note := 64, delay := 10 }], [],
   [{ kind := .noteOff, note := 60 }, { kind := .noteOff, note := 64 }]]

theorem ended_of_cancelled_strum :
    ({ state := {} } : Player Rehearsal).IsAccurate ∧ ∀ key kind,
      (({ state := {} } : Player Rehearsal).run (Rehearsal.host 0 { atSleep := some 1 }) true 1
        strummed).1.calls.findSome? (·.noteEvent? key) = some kind → kind = .noteOff := by
  have accurate : ({ state := {} } : Player Rehearsal).IsAccurate := by simp [IsAccurate]
  obtain ⟨-, loop, played, moments, -⟩ :=
    ended_of_cancelled (Rehearsal.host 0 { atSleep := some 1 }) true 1 strummed accurate
  refine ⟨accurate, (moments loop List.prefix_rfl).2 ?_⟩
  rw [← played]
  decide +kernel

def cutting : Host Rehearsal := Rehearsal.host 0 { atSleep := some 2 }

def cutChord : Player Rehearsal :=
  (({ state := {} } : Player Rehearsal).playSlots cutting true 1 0 strummed).1

theorem ended_note_kept_in_release :
    (({ state := {} } : Player Rehearsal).run cutting true 1 strummed).1 =
      ({ cutChord.sendEnds cutting [(0, 60), (0, 64)] with sounding := [] } :
        Player Rehearsal).reportProgress cutting true none ∧
      ¬(cutChord.sendEnds cutting [(0, 60)]).IsAccurate := by
  have cancelled : cutChord.cancelled = true := by decide +kernel
  have sounds : cutChord.sounding = [(0, 60), (0, 64)] := by decide +kernel
  have inOrder : cutChord.sounding.mergeSort noteLe = [(0, 60), (0, 64)] := by
    rw [sounds]
    exact List.mergeSort_of_pairwise (by simp [noteLe])
  constructor
  · rw [← inOrder, ← release_eq_sendEnds]
    exact run_of_cancelled true 1 strummed cancelled
  · intro right
    have last := (right (0, 60)).1 (by simp [sounds])
    cases last

/-! ### Events after a cancellation -/

def StartsNothing (host : Host σ) (p : Player σ) (calls : List Call) : Prop :=
  ∀ before e later, calls = before ++ .send e :: later →
    (p.after host before).cancelled = true → e.isNoteOff = true

def IsCutWait (host : Host σ) (p : Player σ) (calls : List Call) (e : Event) : Prop :=
  ∃ earlier seconds later, calls = earlier ++ .sleep seconds :: .send e :: later ∧
    (p.after host earlier).cancelled = false ∧
    (p.after host (earlier ++ [.sleep seconds])).cancelled = true

theorem Walk.send_cases {slots : List (List Event)} {calls before later : List Call} {e : Event}
    (walk : Walk host slots p calls) (split : calls = before ++ .send e :: later)
    (cancelled : (p.after host before).cancelled = true) :
    e.isNoteOff = true ∨ HasDelayed slots e ∧ ∃ earlier seconds,
      before = earlier ++ [.sleep seconds] ∧ (p.after host earlier).cancelled = false := by
  induction walk generalizing before with
  | stop => simp at split
  | @move p calls rest move _ ih =>
    -- the event belongs to this move, or all calls of the move come before it
    have further (front : List Call) (same : before = calls ++ front)
        (inRest : rest = front ++ .send e :: later) :
        e.isNoteOff = true ∨ HasDelayed slots e ∧ ∃ earlier seconds,
          before = earlier ++ [.sleep seconds] ∧ (p.after host earlier).cancelled = false := by
      subst same
      rw [after_append] at cancelled
      rcases ih inRest cancelled with ends | ⟨late, earlier, seconds, rfl, free⟩
      · exact .inl ends
      · exact .inr ⟨late, calls ++ earlier, seconds, by simp, by rwa [after_append]⟩
    cases move with
    | @quiet c unsent =>
      cases before with
      | nil =>
        cases split
        exact absurd rfl (unsent e)
      | cons first front =>
        cases split
        exact further front rfl rfl
    | send allowed =>
      cases before with
      | nil =>
        cases split
        exact .inl (allowed.resolve_left (by simpa using cancelled))
      | cons first front =>
        cases split
        exact further front rfl rfl
    | @wait _ seconds free late =>
      cases before with
      | nil => cases split
      | cons first front =>
        cases front with
        | nil =>
          cases split
          exact .inr ⟨late, [], seconds, rfl, free⟩
        | cons second front =>
          cases split
          exact further front rfl rfl

/-- A cancelled player sends nothing but ends of notes, unless it is cancelled while it waits for an event
with a delay: that event, and no other, is still sent. -/
theorem startsNothing_iff (host : Host σ) (listens : Bool) (step : Binary64) (slots : List (List Event))
    (p : Player σ) :
    ∃ calls, (p.run host listens step slots).1.calls = calls.reverse ++ p.calls ∧
      (p.StartsNothing host calls ↔ ∀ e, p.IsCutWait host calls e → e.isNoteOff = true) ∧
      ∀ before e later, calls = before ++ .send e :: later → (p.after host before).cancelled = true →
        e.isNoteOff = true ∨ HasDelayed slots e ∧ p.IsCutWait host calls e := by
  have run : Reaches host slots p (p.run host listens step slots).1 := reaches_run listens step slots p
  obtain ⟨calls, walk, whole⟩ := run
  have exceptions (before : List Call) (e : Event) (later : List Call)
      (split : calls = before ++ .send e :: later) (cancelled : (p.after host before).cancelled = true) :
      e.isNoteOff = true ∨ HasDelayed slots e ∧ p.IsCutWait host calls e := by
    rcases walk.send_cases split cancelled with ends | ⟨late, earlier, seconds, rfl, free⟩
    · exact .inl ends
    · exact .inr ⟨late, earlier, seconds, later, by simp [split], free, cancelled⟩
  refine ⟨calls, by rw [← whole, calls_after], ?_, exceptions⟩
  constructor
  · rintro quiet e ⟨earlier, seconds, later, split, -, cancelled⟩
    exact quiet (earlier ++ [.sleep seconds]) e later (by simp [split]) cancelled
  · intro ends before e later split cancelled
    rcases exceptions before e later split cancelled with ended | ⟨-, cut⟩
    · exact ended
    · exact ends e cut

theorem calls_run_of_cancelled (host : Host σ) (listens : Bool) (step : Binary64)
    (slots : List (List Event)) (p : Player σ)
    (cancelled : (p.playSlots host listens step 0 slots).1.cancelled = true) :
    (p.run host listens step slots).1.calls.reverse =
      (p.playSlots host listens step 0 slots).1.calls.reverse ++
        ((p.playSlots host listens step 0 slots).1.ends.map .send ++
          if listens then [.progress none] else []) := by
  rw [run_of_cancelled listens step slots cancelled, release_eq_after]
  cases listens with
  | false => simp [reportProgress, calls_after]
  | true =>
    change (Call.progress none :: _).reverse = _
    simp [calls_after]

theorem strummed_note_starts_after_cancellation :
    ¬({ state := {} } : Player Rehearsal).StartsNothing (Rehearsal.host 0 { atSleep := some 1 })
      (({ state := {} } : Player Rehearsal).run (Rehearsal.host 0 { atSleep := some 1 }) true 1
        strummed).1.calls.reverse := by
  intro quiet
  rw [calls_run_of_cancelled _ _ _ _ _ (by decide +kernel)] at quiet
  have played :
      (({ state := {} } : Player Rehearsal).playSlots (Rehearsal.host 0 { atSleep := some 1 }) true 1 0
        strummed).1.calls.reverse =
      [.clock, .progress (some 0), .send { kind := .controlChange, control := 7, value := 100 },
        .send { kind := .noteOn, note := 60 }, .sleep (10 / 1000)] ++
        [.send { kind := .noteOn, note := 64, delay := 10 }] := by decide +kernel
  rw [played, List.append_assoc] at quiet
  have ended := quiet _ _ _ rfl (by decide +kernel)
  cases ended

end Player

end ScoreScript.Sequencer
