import ScoreScript.Proofs.Reading

set_option autoImplicit false

namespace ScoreScript

def Event.isSample (e : Event) : Bool := e.kind = .sample

structure Step.IsPlain (s : Step) : Prop where
  sound : s.isError = false
  plain : s.ornament = none
  starts : s.tiesBackward = false

instance (s : Step) : Decidable s.IsPlain :=
  decidable_of_iff (s.isError = false ∧ s.ornament = none ∧ s.tiesBackward = false)
    ⟨fun ⟨sound, plain, starts⟩ => ⟨sound, plain, starts⟩, fun h => ⟨h.sound, h.plain, h.starts⟩⟩

namespace Performance

open Placed

def struck (samples : Table Sample) (floor channel : Int) (o : Onset) (later : List Onset) :
    List Event :=
  eventsAt
    ((stepFigures samples floor channel o.slot o.step (later.map Onset.step)).flatMap Figure.placed)
    o.slot.toNat

def voiceOf (channel : Int) (o : Onset) : Voice := ⟨channel, clampData o.step.velocity⟩

def sampleEvents (samples : Table Sample) (channel : Int) (o : Onset) : List Event :=
  o.step.samples.filterMap fun name => (samples.find? name).map (sampleEvent (voiceOf channel o) name)

/-- Whether a step starts each of its pitches and plays each of its samples that are defined. -/
def SoundsWhole (samples : Table Sample) (floor channel : Int) (o : Onset) (later : List Onset) :
    Prop :=
  (struck samples floor channel o later).filter Event.isNoteOn =
      o.step.pitches.map (voiceOf channel o).noteOn ∧
    (struck samples floor channel o later).filter Event.isSample = sampleEvents samples channel o

theorem eventsAt_map_one {α : Type} {items : List α} {place : Int} {slot : Nat} {event : α → Event}
    (here : place = slot) :
    eventsAt (items.map fun item => .one place (event item)) slot = items.map event := by
  induction items with
  | nil => rfl
  | cons item rest ih =>
    rw [List.map_cons, eventsAt_cons, ih, if_pos (by exact here)]
    rfl

theorem eventsAt_samples {samples : Table Sample} {v : Voice} {place : Int} {slot : Nat}
    (names : List Text) (here : place = slot) :
    eventsAt (names.filterMap fun name =>
        (samples.find? name).map fun sample => .one place (sampleEvent v name sample)) slot =
      names.filterMap fun name => (samples.find? name).map (sampleEvent v name) := by
  induction names with
  | nil => rfl
  | cons name rest ih =>
    cases found : samples.find? name with
    | none => simpa [found] using ih
    | some sample =>
      simp only [List.filterMap_cons, found, Option.map_some, eventsAt_cons, ih]
      rw [if_pos (by exact here)]
      rfl

variable {samples : Table Sample} {floor channel : Int} {o : Onset}

theorem struck_eq (later : List Onset) (placed : 0 ≤ o.slot) (long : 1 ≤ o.step.length)
    (isPlain : o.step.IsPlain) :
    struck samples floor channel o later =
      o.step.messages.map (·.event channel) ++
        (if o.step.isNote then o.step.pitches.map (voiceOf channel o).noteOn else []) ++
        sampleEvents samples channel o := by
  obtain ⟨sound, plain, starts⟩ := isPlain
  have here : o.slot = (o.slot.toNat : Int) := (Int.toNat_of_nonneg placed).symm
  -- its ends come later, as it lasts
  have ended : eventsAt (if o.step.tiesForward then [] else endsOf channel o) o.slot.toNat = [] := by
    refine eventsAt_of_lt fun p member => ?_
    split at member
    · simp at member
    · rw [slot_endsOf p member, Onset.finish]
      omega
  have split :
      (stepFigures samples floor channel o.slot o.step (later.map Onset.step)).flatMap Figure.placed =
      messagesOf channel o ++
        startsOf samples floor channel (soundingLength o.step (later.map Onset.step)) o ++
        (if o.step.tiesForward then [] else endsOf channel o) := by
    simp [stepFigures, startsOf, endsOf, messagesOf, sound, starts, Figure.placed]
  rw [struck, split, eventsAt_append, eventsAt_append, ended, List.append_nil, messagesOf,
    eventsAt_map_one here, List.append_assoc]
  congr 1
  simp only [startsOf, sound, Bool.false_eq_true, if_false, Performance.starts, plain,
    List.flatMap_cons, List.flatMap_nil, List.append_nil, Figure.placed, eventsAt_append, eventsAt_samples _ here]
  congr 1
  split
  · exact eventsAt_map_one here
  · rfl

theorem filter_messages (messages : List ControlMessage) :
    (messages.map (·.event channel)).filter Event.isNoteOn = [] ∧
      (messages.map (·.event channel)).filter Event.isSample = [] := by
  simp only [List.filter_eq_nil_iff, List.forall_mem_map]
  constructor <;> intro message _ <;>
    cases message <;> simp [ControlMessage.event, Event.isNoteOn, Event.isSample]

theorem filter_noteOns (v : Voice) (pitches : List Int) :
    (pitches.map v.noteOn).filter Event.isNoteOn = pitches.map v.noteOn ∧
      (pitches.map v.noteOn).filter Event.isSample = [] := by
  simp only [List.filter_eq_nil_iff, List.filter_eq_self, List.forall_mem_map]
  exact ⟨fun _ _ => rfl, fun _ _ => by simp [Voice.noteOn, Event.isSample]⟩

theorem filter_sampleEvents :
    (sampleEvents samples channel o).filter Event.isNoteOn = [] ∧
      (sampleEvents samples channel o).filter Event.isSample = sampleEvents samples channel o := by
  have all : ∀ e ∈ sampleEvents samples channel o, e.kind = .sample := by
    intro e member
    obtain ⟨name, -, found⟩ := List.mem_filterMap.1 member
    obtain ⟨sample, -, rfl⟩ := Option.map_eq_some_iff.1 found
    rfl
  simp only [List.filter_eq_nil_iff, List.filter_eq_self]
  exact ⟨fun e member => by simp [Event.isNoteOn, all e member],
    fun e member => by simp [Event.isSample, all e member]⟩

theorem filter_struck (later : List Onset) (placed : 0 ≤ o.slot) (long : 1 ≤ o.step.length)
    (isPlain : o.step.IsPlain) :
    (struck samples floor channel o later).filter Event.isNoteOn =
        (if o.step.isNote then o.step.pitches.map (voiceOf channel o).noteOn else []) ∧
      (struck samples floor channel o later).filter Event.isSample =
        sampleEvents samples channel o := by
  rw [struck_eq later placed long isPlain]
  simp only [List.filter_append, filter_messages, filter_sampleEvents]
  split <;> simp [filter_noteOns]

theorem soundsWhole_iff (later : List Onset) (placed : 0 ≤ o.slot) (long : 1 ≤ o.step.length)
    (isPlain : o.step.IsPlain) :
    SoundsWhole samples floor channel o later ↔ o.step.isNote = true ∨ o.step.pitches = [] := by
  obtain ⟨notes, played⟩ := @filter_struck samples floor channel o later placed long isPlain
  rw [SoundsWhole, notes, played]
  cases o.step.isNote with
  | true => simp
  | false =>
    simp only [Bool.false_eq_true, if_false, and_true, false_or]
    constructor
    · exact fun silent => List.map_eq_nil_iff.1 silent.symm
    · exact fun none => by rw [none, List.map_nil]

theorem isInfix_flatMap {α β : Type} {items : List α} {item : α} (member : item ∈ items)
    (f : α → List β) : f item <:+: items.flatMap f := by
  obtain ⟨before, after, rfl⟩ := List.append_of_mem member
  exact ⟨before.flatMap f, after.flatMap f, by simp⟩

theorem isInfix_eventsAt {part whole : List Placed} (inside : part <:+: whole) (slot : Nat) :
    eventsAt part slot <:+: eventsAt whole slot := by
  obtain ⟨before, after, rfl⟩ := inside
  exact ⟨eventsAt before slot, eventsAt after slot, by simp [eventsAt_append]⟩

theorem isInfix_stepFigures (before : List Onset) (o : Onset) (later : List Onset) :
    (stepFigures samples floor channel o.slot o.step (later.map Onset.step)).flatMap Figure.placed <:+:
      onsetPlaced samples floor channel (before ++ o :: later) := by
  -- each earlier step puts its figures in front
  induction before with
  | nil => exact ⟨[], onsetPlaced samples floor channel later, by simp [onsetPlaced, onsetFigures]⟩
  | cons other rest ih =>
    refine ih.trans ⟨(stepFigures samples floor channel other.slot other.step
      ((rest ++ o :: later).map Onset.step)).flatMap Figure.placed, [], ?_⟩
    simp [onsetPlaced, onsetFigures]

end Performance

open Performance

namespace Score

def PlaysStep (c : Score) (start : Int) (i : Instrument) (o : Onset) (later : List Onset) : Prop :=
  ∃ s before, (start, s) ∈ schedule c 0 (playedSections c) ∧ i ∈ c.instruments ∧ i.selected = true ∧
    instrumentOnsets c s i = before ++ o :: later

def AllPartsSound (c : Score) (floor : Int) : Prop :=
  ∀ start i o later, c.PlaysStep start i o later → o.step.IsPlain →
    SoundsWhole c.samples floor i.channel o later

variable {c : Score} {floor start : Int} {i : Instrument} {o : Onset} {later : List Onset}

theorem place_of_playsStep (regular : c.Regular) (plays : c.PlaysStep start i o later) :
    0 ≤ start ∧ 0 ≤ o.slot ∧ 1 ≤ o.step.length := by
  obtain ⟨s, before, played, -, -, row⟩ := plays
  have forward := Int.le_of_lt regular.forward
  have lasting := (regular_of_mem_schedule regular played).lasting i.name
  have member : o ∈ instrumentOnsets c s i := by simp [row]
  exact ⟨start_nonneg forward (Int.le_refl 0) played, slot_instrumentOnsets forward lasting member,
    (lasting_instrumentOnsets lasting member).length⟩

theorem isInfix_struck (regular : c.Regular) {timeline : Timeline}
    (done : c.timeline floor = .ok timeline) (plays : c.PlaysStep start i o later) :
    ∃ slot : Nat, start + o.slot = slot ∧
      struck c.samples floor i.channel o later <:+: (timeline.slots[slot]?).getD [] := by
  obtain ⟨started, placed, -⟩ := place_of_playsStep regular plays
  obtain ⟨s, before, played, declared, selected, row⟩ := plays
  have own := @isInfix_stepFigures c.samples floor i.channel before o later
  rw [← row] at own
  -- the step in its row, the row in its section, and the section, moved to its start, in the score
  have inSection : onsetPlaced c.samples floor i.channel (instrumentOnsets c s i) <:+:
      sectionEvents c floor s (c.instruments.filter (·.selected)) := by
    rw [sectionEvents_eq]
    exact isInfix_flatMap (List.mem_filter.2 ⟨declared, selected⟩)
      fun i => onsetPlaced c.samples floor i.channel (instrumentOnsets c s i)
  have inScore :
      (sectionEvents c floor s (c.instruments.filter (·.selected))).map (Placed.shift start) <:+:
      scheduledEvents c floor (c.instruments.filter (·.selected)) (schedule c 0 (playedSections c)) :=
    isInfix_flatMap played fun entry =>
      (sectionEvents c floor entry.2 (c.instruments.filter (·.selected))).map (Placed.shift entry.1)
  have inside := ((own.trans inSection).map (Placed.shift start)).trans inScore
  refine ⟨(start + o.slot).toNat, by omega, ?_⟩
  rw [getElem?_slots regular done]
  have moved : start + (o.slot.toNat : Int) = ((start + o.slot).toNat : Int) := by omega
  rw [struck, ← Placed.eventsAt_shift start moved]
  exact isInfix_eventsAt inside _

end Score

namespace Compilation

/-- A plain step plays its parts at once in its slot: all samples that are defined, and all pitches
just if its kind makes it a note, which the last part of its word that sets the kind decides. -/
theorem parts_sound_iff {settings : Settings} {earlier : Option Selection} {text : Text}
    {c : Compilation} (compiled : ofText settings earlier text = .ok c) :
    (∃ floor, c.score.timeline floor = .ok c.timeline ∧
      ∀ start i o later, c.score.PlaysStep start i o later → o.step.IsPlain →
        (∃ slot : Nat, start + o.slot = slot ∧
          struck c.score.samples floor i.channel o later <:+: (c.timeline.slots[slot]?).getD []) ∧
        (struck c.score.samples floor i.channel o later).filter Event.isSample =
          sampleEvents c.score.samples i.channel o ∧
        (SoundsWhole c.score.samples floor i.channel o later ↔
          o.step.isNote = true ∨ o.step.pitches = [])) ∧
      ∀ ctx chord word length, (Notation.stepOf ctx word length chord).isNote = true ↔
        (Notation.partKinds ctx chord (Notation.undotted word)).getLast? ∈
          [some Step.Kind.synth, some Step.Kind.drum] := by
  obtain ⟨regular, floor, done⟩ := Compilation.regular compiled
  refine ⟨⟨floor, done, fun start i o later plays isPlain => ?_⟩, fun ctx chord word length => ?_⟩
  · obtain ⟨-, placed, long⟩ := Score.place_of_playsStep regular plays
    exact ⟨Score.isInfix_struck regular done plays, (filter_struck later placed long isPlain).2,
      soundsWhole_iff later placed long isPlain⟩
  · rw [Step.isNote, Notation.stepOf_kind]
    cases (Notation.partKinds ctx chord (Notation.undotted word)).getLast? <;> simp

def mixedNotes : Text :=
  "[composition]\nplaylist: a\n[instruments]\ns: octave=3\n[sounds]\nk: sample(x)\n[a]\ns: k/1 1/k 135"

theorem parts_sound_iff_of_mixedNotes :
    ∃ c, packaged mixedNotes = .ok c ∧ ∃ floor, c.score.timeline floor = .ok c.timeline ∧
      ∃ start i first second later,
        c.score.PlaysStep start i first (second :: later) ∧ c.score.PlaysStep start i second later ∧
        (∀ o ∈ [first, second], o.step.IsPlain ∧ o.step.pitches = [60] ∧
          sampleEvents c.score.samples i.channel o ≠ []) ∧
        SoundsWhole c.score.samples floor i.channel first (second :: later) ∧
        ¬SoundsWhole c.score.samples floor i.channel second later := by
  have plays : ((packaged mixedNotes).toOption.any fun (c : Compilation) => decide <|
      ∃ entry ∈ schedule c.score 0 (playedSections c.score),
        ∃ i ∈ c.score.instruments, i.selected = true ∧
          ((instrumentOnsets c.score entry.2 i).take 2).map (·.step.isNote) = [true, false] ∧
          ∀ o ∈ (instrumentOnsets c.score entry.2 i).take 2, o.step.IsPlain ∧ o.step.pitches = [60] ∧
            sampleEvents c.score.samples i.channel o ≠ []) = true := by
    decide +kernel
  obtain ⟨c, compiled, plays⟩ := Fault.exists_ok_of_any plays
  obtain ⟨⟨start, s⟩, played, i, declared, selected, kinds, mixed⟩ := of_decide_eq_true plays
  obtain ⟨settings, -, read⟩ := Fault.bind_eq_ok.1 compiled
  obtain ⟨⟨floor, done, sounds⟩, -⟩ := parts_sound_iff read
  match row : instrumentOnsets c.score s i with
  | [] | [_] => simp [row] at kinds
  | first :: second :: later =>
    simp only [row, List.take_succ_cons, List.take_zero] at kinds mixed
    obtain ⟨note, silent⟩ : first.step.isNote = true ∧ second.step.isNote = false := by
      simpa using kinds
    have playsFirst : c.score.PlaysStep start i first (second :: later) :=
      ⟨s, [], played, declared, selected, row⟩
    have playsSecond : c.score.PlaysStep start i second later :=
      ⟨s, [first], played, declared, selected, row⟩
    obtain ⟨plain, -⟩ := mixed first (by simp)
    obtain ⟨plain', pitches, -⟩ := mixed second (by simp)
    refine ⟨c, compiled, floor, done, start, i, first, second, later, playsFirst, playsSecond, mixed,
      (sounds _ _ _ _ playsFirst plain).2.2.2 (.inl note), fun whole => ?_⟩
    rcases (sounds _ _ _ _ playsSecond plain').2.2.1 whole with isNote | none
    · exact absurd isNote (by simp [silent])
    · exact absurd none (by simp [pitches])

def silencedNote : Text :=
  "[composition]\nplaylist: a\n[instruments]\ns: octave=3\n[sounds]\nk: sample(x)\n[a]\ns: 1/k"

theorem sample_silences_note :
    ∃ c, packaged silencedNote = .ok c ∧ ∀ floor, ¬c.score.AllPartsSound floor := by
  have silenced : ((packaged silencedNote).toOption.any fun (c : Compilation) => decide <|
      ∃ entry ∈ schedule c.score 0 (playedSections c.score),
        ∃ i ∈ c.score.instruments, i.selected = true ∧
          (instrumentOnsets c.score entry.2 i).head?.any fun o =>
            o.step.IsPlain && !o.step.isNote && o.step.pitches ≠ []) = true := by
    decide +kernel
  obtain ⟨c, compiled, silenced⟩ := Fault.exists_ok_of_any silenced
  obtain ⟨⟨start, s⟩, played, i, declared, selected, silenced⟩ := of_decide_eq_true silenced
  obtain ⟨o, first, silenced⟩ := (Option.any_eq_true _ _).1 silenced
  simp only [Bool.and_eq_true, decide_eq_true_eq, Bool.not_eq_true'] at silenced
  obtain ⟨⟨isPlain, noNote⟩, pitched⟩ := silenced
  obtain ⟨later, row⟩ := List.head?_eq_some_iff.1 first
  obtain ⟨settings, -, read⟩ := Fault.bind_eq_ok.1 compiled
  have plays : c.score.PlaysStep start i o later := ⟨s, [], played, declared, selected, row⟩
  obtain ⟨-, placed, long⟩ := Score.place_of_playsStep (Compilation.regular read).1 plays
  refine ⟨c, compiled, fun floor sounds => ?_⟩
  have whole := (soundsWhole_iff later placed long isPlain).1 (sounds start i o later plays isPlain)
  rcases whole with isNote | silent
  · rw [noNote] at isNote
    cases isNote
  · exact pitched silent

end Compilation

end ScoreScript
