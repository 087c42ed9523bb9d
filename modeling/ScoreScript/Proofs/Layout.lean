import Mathlib.Data.List.Count
import ScoreScript.Proofs.Chain

set_option autoImplicit false

namespace ScoreScript

def Ornament.IsLasting : Ornament → Prop
  | arpeggio _ _ duration => 0 < duration
  | strum _ _ _ => True

structure Step.IsLasting (s : Step) : Prop where
  length : 1 ≤ s.length
  ornament : ∀ ornament ∈ s.ornament, ornament.IsLasting

def Measure.AllLasting (measures : List Measure) : Prop :=
  ∀ measure ∈ measures, ∀ step ∈ measure, step.IsLasting

def Ornament.IsPlayable : Ornament → Prop
  | arpeggio _ spacing duration => 1 ≤ spacing ∧ 1 ≤ duration
  | strum _ _ _ => True

instance (ornament : Ornament) : Decidable ornament.IsPlayable := by
  cases ornament <;> unfold Ornament.IsPlayable <;> infer_instance

theorem Ornament.IsPlayable.isLasting {ornament : Ornament} (playable : ornament.IsPlayable) :
    ornament.IsLasting := by
  cases ornament with
  | arpeggio => exact playable.2
  | strum => trivial

structure Step.IsPlayable (s : Step) : Prop where
  length : 1 ≤ s.length
  ornament : ∀ ornament ∈ s.ornament, ornament.IsPlayable

instance (s : Step) : Decidable s.IsPlayable :=
  decidable_of_iff (1 ≤ s.length ∧ ∀ ornament ∈ s.ornament, ornament.IsPlayable)
    ⟨fun both => ⟨both.1, both.2⟩, fun playable => ⟨playable.length, playable.ornament⟩⟩

theorem Step.IsPlayable.isLasting {s : Step} (playable : s.IsPlayable) : s.IsLasting :=
  ⟨playable.length, fun ornament found => (playable.ornament ornament found).isLasting⟩

namespace Placed

def shift (offset : Int) (p : Placed) : Placed := ⟨offset + p.slot, p.events⟩

theorem mem_eventsAt {placed : List Placed} {slot : Nat} {e : Event} :
    e ∈ eventsAt placed slot ↔ ∃ p ∈ placed, p.slot = slot ∧ e ∈ p.events := by
  simp [eventsAt, and_assoc]

theorem eventsAt_nil (slot : Nat) : eventsAt [] slot = [] := rfl

theorem eventsAt_of_lt {placed : List Placed} {slot : Nat}
    (later : ∀ p ∈ placed, (slot : Int) < p.slot) : eventsAt placed slot = [] := by
  rw [eventsAt, List.filter_eq_nil_iff.2, List.flatMap_nil]
  intro p member
  have := later p member
  simp only [decide_eq_true_eq]
  omega

theorem eventsAt_shift (offset : Int) {placed : List Placed} {slot other : Nat}
    (moved : offset + slot = other) :
    eventsAt (placed.map (shift offset)) other = eventsAt placed slot := by
  induction placed with
  | nil => rfl
  | cons p rest ih =>
    have same : ((shift offset p).slot = (other : Int)) = (p.slot = (slot : Int)) := by
      simp only [shift, eq_iff_iff]
      omega
    rw [List.map_cons, eventsAt_cons, eventsAt_cons, ih]
    simp only [same]
    rfl

def entries (p : Placed) : List (Int × Event) := p.events.map fun e => (p.slot, e)

theorem count_entries (p : Placed) (slot : Int) (e : Event) :
    p.entries.count (slot, e) = if p.slot = slot then p.events.count e else 0 := by
  rw [entries]
  split
  next here =>
    subst here
    exact List.count_map_of_injective p.events _ (fun _ _ same => (Prod.mk.inj same).2) e
  next elsewhere => exact List.count_eq_zero.2 (by simp [elsewhere])

theorem count_flatMap_entries (placed : List Placed) (slot : Nat) (e : Event) :
    (placed.flatMap entries).count ((slot : Int), e) = (eventsAt placed slot).count e := by
  induction placed with
  | nil => rfl
  | cons p rest ih =>
    rw [List.flatMap_cons, List.count_append, ih, count_entries, eventsAt_cons, List.count_append]
    split <;> simp

theorem perm_of_eventsAt {first second : List Placed} (nonneg : ∀ p ∈ first, 0 ≤ p.slot)
    (nonneg' : ∀ p ∈ second, 0 ≤ p.slot)
    (same : ∀ slot, eventsAt first slot = eventsAt second slot) :
    (first.flatMap entries).Perm (second.flatMap entries) := by
  have none (placed : List Placed) (nonneg : ∀ p ∈ placed, 0 ≤ p.slot) {slot : Int} (before : slot < 0)
      (e : Event) : (placed.flatMap entries).count (slot, e) = 0 := by
    refine List.count_eq_zero.2 fun member => ?_
    obtain ⟨p, inPlaced, inEntries⟩ := List.mem_flatMap.1 member
    obtain ⟨_, _, entry⟩ := List.mem_map.1 inEntries
    have := nonneg p inPlaced
    have := (Prod.mk.inj entry).1
    omega
  refine List.perm_iff_count.2 ?_
  rintro ⟨slot, e⟩
  -- slots before the first one are empty, and in the others the same events stand
  rcases Int.lt_or_le slot 0 with before | after
  · rw [none first nonneg before, none second nonneg' before]
  · obtain ⟨place, rfl⟩ := Int.eq_ofNat_of_zero_le after
    rw [count_flatMap_entries, count_flatMap_entries, same]

end Placed

namespace Performance

open Placed

section

variable {samples : Table Sample} {floor channel : Int}

theorem slot_arpeggio {v : Voice} {notes : List Int} {spacing duration stop : Int} {k : Nat}
    {slot : Int} (lasting : 0 < duration) :
    ∀ p ∈ arpeggio v notes spacing duration stop k slot, slot ≤ p.slot := by
  fun_induction arpeggio v notes spacing duration stop k slot with
  | case1 => simp
  | case2 k slot ongoing note found ih =>
    refine List.forall_mem_cons.2 ⟨Int.le_refl _, List.forall_mem_cons.2 ⟨?_, fun p member => ?_⟩⟩
    · simp only [Placed.one]
      omega
    · have := ih p member
      omega
  | case3 => simp

theorem slot_strum {v : Voice} {notes : List Int} {delay decay slot : Int} :
    ∀ p ∈ strum v notes delay decay floor slot, p.slot = slot := by
  have go (v : Voice) (k : Nat) : ∀ p ∈ strum.go delay decay floor slot v k notes, p.slot = slot := by
    induction notes generalizing v k with
    | nil => simp [strum.go]
    | cons note rest ih => exact List.forall_mem_cons.2 ⟨rfl, ih _ _⟩
  exact go v 0

theorem mem_samplePlaced {v : Voice} {slot : Int} {names : List Text} {p : Placed}
    (member : p ∈ names.filterMap fun name =>
      (samples.find? name).map fun sample => Placed.one slot (sampleEvent v name sample)) :
    ∃ name sample, p = .one slot (sampleEvent v name sample) := by
  obtain ⟨name, -, found⟩ := List.mem_filterMap.1 member
  obtain ⟨sample, -, same⟩ := Option.map_eq_some_iff.1 found
  exact ⟨name, sample, same.symm⟩

theorem slot_startsOf {length : Int} {o : Onset} (lasting : o.step.IsLasting) :
    ∀ p ∈ startsOf samples floor channel length o, o.slot ≤ p.slot := by
  intro p member
  unfold startsOf at member
  split at member
  · simp at member
  · simp only [starts, List.flatMap_cons, List.flatMap_nil, List.append_nil, List.mem_append] at member
    rcases member with note | sample
    · cases ornament : o.step.ornament with
      | none =>
        simp only [ornament, Figure.placed] at note
        split at note
        · obtain ⟨_, _, rfl⟩ := List.mem_map.1 note
          exact Int.le_refl _
        · simp at note
      | some shape =>
        have here := lasting.ornament shape ornament
        cases shape with
        | arpeggio order spacing duration =>
          simp only [ornament, Figure.placed] at note
          exact slot_arpeggio here p note
        | strum order delay decay =>
          simp only [ornament, Figure.placed] at note
          exact Int.le_of_eq (slot_strum p note).symm
    · obtain ⟨_, _, rfl⟩ := mem_samplePlaced sample
      exact Int.le_refl _

theorem slot_messagesOf {o : Onset} : ∀ p ∈ messagesOf channel o, p.slot = o.slot := by
  simp [messagesOf, Placed.one]

theorem slot_endsOf {o : Onset} : ∀ p ∈ endsOf channel o, p.slot = o.finish := by
  unfold endsOf ends
  split
  · simp
  · split <;> simp [Placed.one, Onset.finish]

theorem slot_onsetPlaced {row : List Onset} (lasting : ∀ o ∈ row, o.step.IsLasting) :
    ∀ p ∈ onsetPlaced samples floor channel row, ∃ o ∈ row, o.slot ≤ p.slot := by
  induction row with
  | nil => simp [onsetPlaced, onsetFigures]
  | cons o later ih =>
    intro p member
    rw [onsetPlaced_cons] at member
    simp only [List.mem_append] at member
    have here := lasting o (by simp)
    rcases member with ((message | start) | ending) | rest
    · exact ⟨o, by simp, Int.le_of_eq (slot_messagesOf p message).symm⟩
    · split at start
      · simp at start
      · exact ⟨o, by simp, slot_startsOf here p start⟩
    · split at ending
      · simp at ending
      · have := here.length
        exact ⟨o, by simp, by rw [slot_endsOf p ending, Onset.finish]; omega⟩
    · obtain ⟨other, inLater, before⟩ := ih (fun q inRest => lasting q (by simp [inRest])) p rest
      exact ⟨other, by simp [inLater], before⟩

end

def instrumentOnsets (c : Score) (s : MusicalSection) (i : Instrument) : List Onset :=
  onsets c.grid.stepsPerMeasure 0 (s.measuresOf i.name)

theorem mem_instrumentOnsets {c : Score} {s : MusicalSection} {i : Instrument} {o : Onset}
    (member : o ∈ instrumentOnsets c s i) : ∃ measure ∈ s.measuresOf i.name, o.step ∈ measure := by
  have inRow : o.step ∈ (instrumentOnsets c s i).map Onset.step := List.mem_map_of_mem member
  rwa [instrumentOnsets, map_step_onsets, List.mem_flatten] at inRow

theorem sectionEvents_eq (c : Score) (floor : Int) (s : MusicalSection)
    (instruments : List Instrument) :
    sectionEvents c floor s instruments =
      instruments.flatMap fun i => onsetPlaced c.samples floor i.channel (instrumentOnsets c s i) := by
  simp only [sectionEvents, sectionFigures, List.flatMap_assoc, instrumentFigures, measuresFigures_eq,
    onsetPlaced, instrumentOnsets]

theorem lasting_instrumentOnsets {c : Score} {s : MusicalSection} {i : Instrument}
    (lasting : Measure.AllLasting (s.measuresOf i.name)) {o : Onset}
    (member : o ∈ instrumentOnsets c s i) : o.step.IsLasting := by
  obtain ⟨measure, inSection, inMeasure⟩ := mem_instrumentOnsets member
  exact lasting measure inSection o.step inMeasure

theorem slot_instrumentOnsets {c : Score} (forward : 0 ≤ c.grid.stepsPerMeasure) {s : MusicalSection}
    {i : Instrument} (lasting : Measure.AllLasting (s.measuresOf i.name)) {o : Onset}
    (member : o ∈ instrumentOnsets c s i) : 0 ≤ o.slot := by
  refine slot_onsets forward (fun measure inSection step inMeasure => ?_) member
  have := (lasting measure inSection step inMeasure).length
  omega

theorem slot_sectionEvents {c : Score} (forward : 0 ≤ c.grid.stepsPerMeasure) {floor : Int}
    {s : MusicalSection} {instruments : List Instrument}
    (lasting : ∀ i ∈ instruments, Measure.AllLasting (s.measuresOf i.name)) :
    ∀ p ∈ sectionEvents c floor s instruments, 0 ≤ p.slot := by
  intro p member
  rw [sectionEvents_eq, List.mem_flatMap] at member
  obtain ⟨i, selected, placed⟩ := member
  obtain ⟨o, inRow, before⟩ :=
    slot_onsetPlaced (fun o inRow => lasting_instrumentOnsets (lasting i selected) inRow) p placed
  have := slot_instrumentOnsets forward (lasting i selected) inRow
  omega

theorem add_of_perform {slots after : Slots} {p : Placed} (done : perform slots p = .ok after) :
    add slots p = .ok after := by
  unfold perform at done
  split at done
  · cases done
  · exact done

theorem addAll_of_perform {slots result : Slots} {placed : List Placed}
    (done : placed.foldlM perform slots = .ok result) : addAll slots placed = .ok result := by
  induction placed generalizing slots with
  | nil => exact done
  | cons p rest ih =>
    rw [List.foldlM_cons] at done
    obtain ⟨after, here, later⟩ := Fault.bind_eq_ok.1 done
    rw [addAll, List.foldlM_cons]
    exact Fault.bind_eq_ok.2 ⟨after, add_of_perform here, ih later⟩

theorem addAll_of_figure {slots result : Slots} {f : Figure} (done : f.perform slots = .ok result) :
    addAll slots f.placed = .ok result := by
  cases backward : f.isBackward with
  -- a figure that goes backwards is a fault, so it was not performed
  | true => simp [Figure.perform.eq_def, backward] at done
  | false => exact addAll_of_perform (by rwa [← Figure.perform_eq_foldlM slots backward])

theorem addAll_of_figures {slots result : Slots} {figures : List Figure}
    (done : figures.foldlM Figure.perform slots = .ok result) :
    addAll slots (figures.flatMap Figure.placed) = .ok result := by
  induction figures generalizing slots with
  | nil => exact done
  | cons f rest ih =>
    rw [List.foldlM_cons] at done
    obtain ⟨after, here, later⟩ := Fault.bind_eq_ok.1 done
    rw [List.flatMap_cons, addAll, List.foldlM_append]
    exact Fault.bind_eq_ok.2 ⟨after, addAll_of_figure here, ih later⟩

variable {c : Score} {floor : Int} {instruments : List Instrument}

theorem getElem?_sectionSlots {s : MusicalSection} {slots : List (List Event)}
    (nonneg : ∀ p ∈ sectionEvents c floor s instruments, 0 ≤ p.slot)
    (done : sectionSlots c floor s instruments = .ok slots) (slot : Nat) :
    (slots[slot]?).getD [] = eventsAt (sectionEvents c floor s instruments) slot := by
  obtain ⟨result, performed, same⟩ := Fault.bind_eq_ok.1 done
  cases same
  obtain ⟨laid, added, -, content⟩ := layOut_of_nonneg (nominalLength c s + 1).toNat nonneg
  rw [layOut, sectionEvents, addAll_of_figures performed] at added
  cases added
  exact content slot

theorem eventsAt_placedFrom (slots : List (List Event)) (slot : Nat) :
    eventsAt (placedFrom 0 slots) slot = (slots[slot]?).getD [] := by
  induction slots using List.reverseRecOn with
  | nil => rfl
  | append_singleton earlier events ih =>
    have split : placedFrom 0 (earlier ++ [events]) =
        placedFrom 0 earlier ++ [⟨(earlier.length : Int), events⟩] := by
      simp [placedFrom, List.zipIdx_append]
    rw [split, eventsAt_append, ih, eventsAt_cons, eventsAt_nil, List.append_nil]
    simp only [Int.natCast_inj]
    rcases Nat.lt_trichotomy slot earlier.length with inside | here | outside
    · rw [List.getElem?_append_left inside, if_neg (by omega), List.append_nil]
    · simp [here]
    · have beyond : (earlier ++ [events]).length ≤ slot := by
        rw [List.length_append, List.length_singleton]
        exact outside
      rw [List.getElem?_eq_none (Nat.le_of_lt outside), List.getElem?_eq_none beyond, if_neg (by omega)]
      rfl

theorem slot_placedFrom (offset : Int) (slots : List (List Event)) :
    ∀ p ∈ placedFrom offset slots, offset ≤ p.slot := by
  intro p member
  obtain ⟨entry, -, rfl⟩ := List.mem_map.1 member
  dsimp only
  omega

theorem placedFrom_eq_shift (offset : Int) (slots : List (List Event)) :
    placedFrom offset slots = (placedFrom 0 slots).map (shift offset) := by
  simp [placedFrom, shift]

theorem eventsAt_moved {offset : Int} {slots : List (List Event)} {placed : List Placed}
    (nonneg : ∀ p ∈ placed, 0 ≤ p.slot)
    (content : ∀ slot : Nat, (slots[slot]?).getD [] = eventsAt placed slot) (slot : Nat) :
    eventsAt (placedFrom offset slots) slot = eventsAt (placed.map (shift offset)) slot := by
  rw [placedFrom_eq_shift]
  -- nothing stands before the offset, and from there on both rows are moved alike
  rcases Int.lt_or_le slot offset with before | after
  · rw [eventsAt_of_lt, eventsAt_of_lt]
    · intro p member
      obtain ⟨q, inPlaced, rfl⟩ := List.mem_map.1 member
      have := nonneg q inPlaced
      simp only [shift]
      omega
    · intro p member
      obtain ⟨q, inSlots, rfl⟩ := List.mem_map.1 member
      have := slot_placedFrom 0 slots q inSlots
      simp only [shift]
      omega
  · have moved : offset + ((slot - offset).toNat : Int) = slot := by omega
    rw [eventsAt_shift offset moved, eventsAt_shift offset moved, eventsAt_placedFrom, content]

def schedule (c : Score) (offset : Int) : List MusicalSection → List (Int × MusicalSection)
  | [] => []
  | s :: rest => (offset, s) :: schedule c (offset + nominalLength c s) rest

def scheduledEvents (c : Score) (floor : Int) (instruments : List Instrument)
    (sections : List (Int × MusicalSection)) : List Placed :=
  sections.flatMap fun entry => (sectionEvents c floor entry.2 instruments).map (shift entry.1)

theorem mem_of_mem_schedule {offset : Int} {sections : List MusicalSection}
    {entry : Int × MusicalSection} (member : entry ∈ schedule c offset sections) : entry.2 ∈ sections := by
  induction sections generalizing offset with
  | nil => simp [schedule] at member
  | cons s rest ih =>
    rcases List.mem_cons.1 member with rfl | later
    · exact List.mem_cons_self
    · exact List.mem_cons_of_mem _ (ih later)

theorem nominalLength_nonneg (forward : 0 ≤ c.grid.stepsPerMeasure) (s : MusicalSection) :
    0 ≤ nominalLength c s :=
  Int.mul_nonneg (Int.natCast_nonneg _) forward

theorem le_start (forward : 0 ≤ c.grid.stepsPerMeasure) {offset : Int}
    {sections : List MusicalSection} {entry : Int × MusicalSection}
    (member : entry ∈ schedule c offset sections) : offset ≤ entry.1 := by
  induction sections generalizing offset with
  | nil => simp [schedule] at member
  | cons s rest ih =>
    rcases List.mem_cons.1 member with rfl | later
    · exact Int.le_refl _
    · have := ih later
      have := nominalLength_nonneg forward s
      omega

theorem start_nonneg (forward : 0 ≤ c.grid.stepsPerMeasure) {offset : Int} (start : 0 ≤ offset)
    {sections : List MusicalSection} {entry : Int × MusicalSection}
    (member : entry ∈ schedule c offset sections) : 0 ≤ entry.1 :=
  Int.le_trans start (le_start forward member)

theorem getElem?_joinSections (forward : 0 ≤ c.grid.stepsPerMeasure) {slots result : Slots}
    {offset : Int} (start : 0 ≤ offset) {sections : List MusicalSection}
    (nonneg : ∀ s ∈ sections, ∀ p ∈ sectionEvents c floor s instruments, 0 ≤ p.slot)
    (done : joinSections c floor instruments slots offset sections = .ok result) (slot : Nat) :
    (result[slot]?).getD [] = (slots[slot]?).getD [] ++
      eventsAt (scheduledEvents c floor instruments (schedule c offset sections)) slot := by
  induction sections generalizing slots offset with
  | nil =>
    cases done
    simp [schedule, scheduledEvents, eventsAt_nil]
  | cons s rest ih =>
    obtain ⟨own, performed, joined⟩ := Fault.bind_eq_ok.1 done
    obtain ⟨grown, added, later⟩ := Fault.bind_eq_ok.1 joined
    have content := getElem?_sectionSlots (nonneg s (by simp)) performed
    have placed (p : Placed) (member : p ∈ placedFrom offset own) : 0 ≤ p.slot :=
      Int.le_trans start (slot_placedFrom offset own p member)
    obtain ⟨filled, same, -, filling⟩ := addAll_of_nonneg slots placed
    rw [added] at same
    cases same
    have tail := ih (Int.add_nonneg start (nominalLength_nonneg forward s))
      (fun t member => nonneg t (by simp [member])) later
    rw [tail, filling, eventsAt_moved (nonneg s (by simp)) content, schedule, List.append_assoc]
    simp only [scheduledEvents, List.flatMap_cons, eventsAt_append]

theorem getElem?_timeline (forward : 0 ≤ c.grid.stepsPerMeasure)
    (nonneg : ∀ s ∈ playedSections c,
      ∀ p ∈ sectionEvents c floor s (c.instruments.filter (·.selected)), 0 ≤ p.slot)
    {timeline : Timeline} (done : c.timeline floor = .ok timeline) (slot : Nat) :
    (timeline.slots[slot]?).getD [] =
      eventsAt (scheduledEvents c floor (c.instruments.filter (·.selected))
        (schedule c 0 (playedSections c))) slot := by
  obtain ⟨slots, joined, same⟩ := Fault.bind_eq_ok.1 done
  cases same
  have content := getElem?_joinSections forward (Int.le_refl 0) nonneg joined slot
  simpa using content

end Performance

end ScoreScript
