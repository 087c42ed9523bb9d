import ScoreScript.Proofs.Events

set_option autoImplicit false

namespace ScoreScript

def Event.isOnOrOff (e : Event) : Bool := e.isNoteOn || e.isNoteOff

namespace Performance

open Placed

def noteEntries (placed : List Placed) : List (Int × Event) :=
  (placed.flatMap entries).filter fun entry => entry.2.isOnOrOff

def noteEvents (slots : List (List Event)) : List (Int × Event) := noteEntries (placedFrom 0 slots)

def noteChains (row : List Onset) : List (List Onset) :=
  (chains row).filter fun chain => chain.all fun o => o.step.isNote && !o.step.isError

def chainNotes (channel : Int) : List Onset → List (Int × Event)
  | [] => []
  | first :: rest =>
    let last := rest.getLastD first
    (first.step.pitches.map fun note => (first.slot,
        { kind := .noteOn, channel, note, velocity := clampData first.step.velocity })) ++
      first.step.pitches.map fun note => (last.finish,
        { kind := .noteOff, channel, note, velocity := clampData last.step.velocity })

@[simp] theorem noteEntries_nil : noteEntries [] = [] := rfl

@[simp] theorem noteEntries_append (first second : List Placed) :
    noteEntries (first ++ second) = noteEntries first ++ noteEntries second := by
  simp [noteEntries]

theorem noteEntries_flatMap {α : Type} (items : List α) (placed : α → List Placed) :
    noteEntries (items.flatMap placed) = items.flatMap fun item => noteEntries (placed item) := by
  induction items with
  | nil => rfl
  | cons item rest ih => simp only [List.flatMap_cons, noteEntries_append, ih]

variable {samples : Table Sample} {floor channel : Int} {o : Onset}

theorem noteEntries_eq_nil {placed : List Placed}
    (silent : ∀ p ∈ placed, ∀ e ∈ p.events, e.isOnOrOff = false) : noteEntries placed = [] := by
  rw [noteEntries, List.filter_eq_nil_iff]
  intro entry member
  obtain ⟨p, inPlaced, inEntries⟩ := List.mem_flatMap.1 member
  obtain ⟨e, inEvents, rfl⟩ := List.mem_map.1 inEntries
  simp [silent p inPlaced e inEvents]

@[simp] theorem noteEntries_messagesOf : noteEntries (messagesOf channel o) = [] := by
  refine noteEntries_eq_nil fun p placed => ?_
  obtain ⟨message, -, rfl⟩ := List.mem_map.1 placed
  cases message <;>
    simp [Placed.one, ControlMessage.event, Event.isOnOrOff, Event.isNoteOn, Event.isNoteOff]

theorem noteEntries_map_one {notes : List Int} {slot : Int} {event : Int → Event}
    (isNote : ∀ note, (event note).isOnOrOff = true) :
    noteEntries (notes.map fun note => .one slot (event note)) =
      notes.map fun note => (slot, event note) := by
  induction notes with
  | nil => rfl
  | cons note rest ih =>
    have here : noteEntries [.one slot (event note)] = [(slot, event note)] := by
      simp [noteEntries, entries, Placed.one, isNote]
    rw [List.map_cons, ← List.singleton_append, noteEntries_append, here, ih]
    rfl

theorem noteEntries_samples (v : Voice) (slot : Int) (names : List Text) :
    noteEntries (names.filterMap fun name =>
      (samples.find? name).map fun sample => .one slot (sampleEvent v name sample)) = [] := by
  refine noteEntries_eq_nil fun p placed => ?_
  obtain ⟨name, sample, rfl⟩ := mem_samplePlaced placed
  simp [Placed.one, sampleEvent, Event.isOnOrOff, Event.isNoteOn, Event.isNoteOff]

theorem noteEntries_startsOf {length : Int} (plain : o.step.ornament = none) :
    noteEntries (startsOf samples floor channel length o) =
      if o.step.isNote && !o.step.isError then
        o.step.pitches.map fun note =>
          (o.slot, Voice.noteOn ⟨channel, clampData o.step.velocity⟩ note)
      else [] := by
  cases error : o.step.isError <;> cases note : o.step.isNote <;>
    simp [startsOf, starts, plain, error, note, Figure.placed, noteEntries_samples]
  exact noteEntries_map_one fun _ => rfl

theorem noteEntries_endsOf :
    noteEntries (endsOf channel o) =
      if o.step.isNote && !o.step.isError then
        o.step.pitches.map fun note =>
          (o.finish, Voice.noteOff ⟨channel, clampData o.step.velocity⟩ note)
      else [] := by
  cases error : o.step.isError <;> cases note : o.step.isNote <;> simp [endsOf, ends, error, note]
  exact noteEntries_map_one fun _ => rfl

theorem noteEntries_chainPlaced {first : Onset} {rest : List Onset} (plain : first.step.ornament = none)
    (same : ∀ o ∈ rest, o.step.tone = first.step.tone) :
    noteEntries (chainPlaced samples floor channel (first :: rest)) =
      if (first :: rest).all fun o => o.step.isNote && !o.step.isError then
        chainNotes channel (first :: rest)
      else [] := by
  -- a chain of notes is one by its first step, as the others agree with it
  have alike (o : Onset) (member : o ∈ first :: rest) :
      o.step.isNote = first.step.isNote ∧ o.step.isError = first.step.isError ∧
        o.step.pitches = first.step.pitches := by
    have tone : o.step.tone = first.step.tone := by
      rcases List.mem_cons.1 member with rfl | later
      · rfl
      · exact same o later
    simp only [Step.tone, Prod.mk.injEq] at tone
    simp [Step.isNote, Step.isError, tone]
  have last := alike (rest.getLastD first) List.getLastD_mem_cons
  have all : ((first :: rest).all fun o => o.step.isNote && !o.step.isError) =
      (first.step.isNote && !first.step.isError) := by
    rw [List.all_cons, Bool.and_eq_left_iff_imp, List.all_eq_true]
    intro here o later
    obtain ⟨note, error, -⟩ := alike o (by simp [later])
    rw [note, error, here]
  have messages : noteEntries (rest.flatMap (messagesOf channel)) = [] := by
    simp [noteEntries_flatMap]
  rw [chainPlaced, all]
  simp only [noteEntries_append, noteEntries_messagesOf, messages, noteEntries_startsOf plain,
    noteEntries_endsOf, last, List.nil_append, List.append_nil]
  split <;> rfl

theorem flatMap_if {α β : Type} (test : α → Bool) (items : List α) (f : α → List β) :
    (items.flatMap fun item => if test item then f item else []) = (items.filter test).flatMap f := by
  induction items with
  | nil => rfl
  | cons item rest ih => cases kept : test item <;> simp [List.flatMap_cons, kept, ih]

theorem noteEntries_onsetPlaced {row : List Onset}
    (tied : Measure.TiedRow Step.tone (row.map Onset.step)) (plain : ∀ o ∈ row, o.step.ornament = none) :
    noteEntries (onsetPlaced samples floor channel row) =
      (noteChains row).flatMap (chainNotes channel) := by
  rw [onsetPlaced_eq _ _ _ tied, noteEntries_flatMap, noteChains, ← flatMap_if]
  refine List.flatMap_congr fun chain member => ?_
  cases chain with
  | nil => exact absurd rfl (isWhole_of_mem_chains tied _ member).present
  | cons first rest =>
    exact noteEntries_chainPlaced (plain first (mem_of_mem_chains member (by simp)))
      (view_eq_of_mem_chains tied member)

theorem noteEvents_of_plain {c : Score} {s : MusicalSection} {i : Instrument}
    (forward : 0 ≤ c.grid.stepsPerMeasure) (lasting : Measure.AllLasting (s.measuresOf i.name))
    (plain : ∀ o ∈ instrumentOnsets c s i, o.step.ornament = none) :
    ∃ slots, sectionSlots c floor s [i] = .ok slots ∧
      (noteEvents slots).Perm
        (noteEntries (onsetPlaced c.samples floor i.channel (instrumentOnsets c s i))) := by
  have figures : sectionFigures c floor s [i] =
      onsetFigures c.samples floor i.channel (instrumentOnsets c s i) := by
    simp [sectionFigures, instrumentFigures, measuresFigures_eq, instrumentOnsets]
  have events : sectionEvents c floor s [i] =
      onsetPlaced c.samples floor i.channel (instrumentOnsets c s i) := by
    simp [sectionEvents_eq]
  have nonneg : ∀ p ∈ sectionEvents c floor s [i], 0 ≤ p.slot :=
    slot_sectionEvents forward (List.forall_mem_singleton.2 lasting)
  -- without ornaments no figure goes backwards and no event comes too late
  have laid : sectionSlots c floor s [i] =
      layOut (nominalLength c s + 1).toNat (sectionEvents c floor s [i]) := by
    refine sectionSlots_eq_layOut (fun f member => ?_) fun p member => ?_
    · rw [figures] at member
      exact isBackward_of_mem_onsetFigures (fun o inRow => by simp [plain o inRow]) f member
    · rw [events] at member
      apply Bool.eq_false_iff.2
      intro late
      obtain ⟨o, inRow, _, _, _, strummed, -⟩ := strum_of_isEndless member late
      simp [plain o inRow] at strummed
  obtain ⟨slots, done, -, content⟩ := layOut_of_nonneg (nominalLength c s + 1).toNat nonneg
  refine ⟨slots, laid.trans done, ?_⟩
  rw [← events]
  refine List.Perm.filter _ (perm_of_eventsAt (slot_placedFrom 0 slots) nonneg fun slot => ?_)
  rw [eventsAt_placedFrom, content]

/-- The notes of tied music without ornaments: in each chain of notes without errors, every pitch starts
once, with the first step, and ends once, with the last one. -/
theorem noteEvents_of_tied (c : Score) (floor : Int) (s : MusicalSection) (i : Instrument)
    (forward : 0 ≤ c.grid.stepsPerMeasure) (tied : Measure.WellTied Step.tone (s.measuresOf i.name))
    (long : ∀ measure ∈ s.measuresOf i.name, ∀ step ∈ measure, 1 ≤ step.length)
    (plain : ∀ measure ∈ s.measuresOf i.name, ∀ step ∈ measure, step.ornament = none) :
    ∃ slots, sectionSlots c floor s [i] = .ok slots ∧
      (noteEvents slots).Perm
        ((noteChains (instrumentOnsets c s i)).flatMap (chainNotes i.channel)) := by
  have row : Measure.TiedRow Step.tone ((instrumentOnsets c s i).map Onset.step) := by
    rw [instrumentOnsets, map_step_onsets]
    exact tied.tiedRow
  have plainRow (o : Onset) (member : o ∈ instrumentOnsets c s i) : o.step.ornament = none := by
    obtain ⟨measure, inSection, inMeasure⟩ := mem_instrumentOnsets member
    exact plain measure inSection o.step inMeasure
  have lasting : Measure.AllLasting (s.measuresOf i.name) := by
    intro measure inSection step inMeasure
    exact ⟨long measure inSection step inMeasure, by simp [plain measure inSection step inMeasure]⟩
  obtain ⟨slots, done, notes⟩ := @noteEvents_of_plain floor c s i forward lasting plainRow
  rw [noteEntries_onsetPlaced row plainRow] at notes
  exact ⟨slots, done, notes⟩

def heldChord : MusicalSection :=
  { name := "a"
    measures := [("s", [
      [{ kind := .synth, pitches := [60, 64], velocity := 90, length := 48, tiesForward := true }],
      [{ kind := .synth, pitches := [60, 64], velocity := 70, length := 60, tiesForward := true,
         tiesBackward := true }],
      [{ kind := .synth, pitches := [60, 64], velocity := 50, length := 24, tiesBackward := true },
       { kind := .drum, pitches := [36], length := 24 }]])] }

theorem noteEvents_of_heldChord :
    ∃ slots, sectionSlots {} 1 heldChord [{ name := "s" }] = .ok slots ∧
      (noteEvents slots).Perm
        [(0, { kind := .noteOn, note := 60, velocity := 90 }),
         (0, { kind := .noteOn, note := 64, velocity := 90 }),
         (120, { kind := .noteOff, note := 60, velocity := 50 }),
         (120, { kind := .noteOff, note := 64, velocity := 50 }),
         (120, { kind := .noteOn, note := 36, velocity := 80 }),
         (144, { kind := .noteOff, note := 36, velocity := 80 })] :=
  noteEvents_of_tied {} 1 heldChord { name := "s" } (by decide) (by decide) (by decide) (by decide)

end Performance

end ScoreScript
