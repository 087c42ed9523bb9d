import ScoreScript.Proofs.Filled
import ScoreScript.Proofs.Totality

set_option autoImplicit false

namespace ScoreScript

structure MusicalSection.KeepsTime (stepsPerMeasure : Int) (s : MusicalSection) : Prop where
  tied : ∀ instrument, Measure.WellTied (fun _ => ()) (s.measuresOf instrument)
  playable : s.AllSteps Step.IsPlayable
  filled : ∀ instrument, ∀ measure ∈ s.measuresOf instrument, Measure.duration measure ≤ stepsPerMeasure

theorem MusicalSection.keepsTime_of_entries {stepsPerMeasure : Int} {s : MusicalSection}
    (tied : ∀ entry ∈ s.measures, Measure.WellTied (fun _ => ()) entry.2)
    (playable : ∀ entry ∈ s.measures, ∀ measure ∈ entry.2, ∀ step ∈ measure, step.IsPlayable)
    (filled : ∀ entry ∈ s.measures, ∀ measure ∈ entry.2, Measure.duration measure ≤ stepsPerMeasure) :
    s.KeepsTime stepsPerMeasure where
  tied := forall_measuresOf (Measure.WellTied fun _ => ()) (by decide) tied
  playable := allSteps_of_entries playable
  filled := forall_measuresOf (fun measures => ∀ measure ∈ measures, Measure.duration measure ≤ stepsPerMeasure)
    (by simp) filled

def Step.IsEndless (s : Step) : Prop :=
  s.error = none ∧ s.tiesBackward = false ∧ ∃ order delay decay,
    s.ornament = some (.strum order delay decay) ∧
      ∃ k < s.playingOrder.length, (Binary64.ofInt (k * delay)).isInfinite = true

def MusicalSection.IsEndless (s : MusicalSection) (instruments : List Instrument) : Prop :=
  ∃ i ∈ instruments, ∃ measure ∈ s.measuresOf i.name, ∃ step ∈ measure, step.IsEndless

namespace Performance

open Placed Fault

variable {samples : Table Sample} {floor channel bound : Int} {c : Score} {s : MusicalSection}
  {instruments : List Instrument}

/-! ### Strums that come too late -/

theorem isEndless_one (slot : Int) (e : Event) : isEndless (.one slot e) = e.delay.isInfinite := by
  simp [isEndless, Placed.one]

theorem exists_isEndless_strum {v : Voice} {notes : List Int} {delay decay slot : Int} :
    (∃ p ∈ strum v notes delay decay floor slot, isEndless p = true) ↔
      ∃ k < notes.length, (Binary64.ofInt (k * delay)).isInfinite = true := by
  rw [strum_eq_mapIdx]
  constructor
  · rintro ⟨p, member, late⟩
    obtain ⟨k, inOrder, rfl⟩ := List.mem_mapIdx.1 member
    rw [isEndless_one] at late
    exact ⟨k, inOrder, late⟩
  · rintro ⟨k, inOrder, late⟩
    exact ⟨_, List.mem_mapIdx.2 ⟨k, inOrder, rfl⟩, by rw [isEndless_one]; exact late⟩

theorem not_isEndless_arpeggio {v : Voice} {notes : List Int} {spacing duration stop slot : Int} {k : Nat} :
    ¬∃ p ∈ arpeggio v notes spacing duration stop k slot, isEndless p = true := by
  rintro ⟨p, member, late⟩
  obtain ⟨note, -, place, rfl | rfl⟩ := mem_arpeggio member <;> cases late

theorem not_isEndless_messagesOf {o : Onset} : ¬∃ p ∈ messagesOf channel o, isEndless p = true := by
  rintro ⟨p, member, late⟩
  obtain ⟨message, -, rfl⟩ := List.mem_map.1 member
  cases message <;> cases late

theorem not_isEndless_endsOf {o : Onset} : ¬∃ p ∈ endsOf channel o, isEndless p = true := by
  rintro ⟨p, member, late⟩
  unfold endsOf ends at member
  split_ifs at member
  · cases member
  · obtain ⟨note, -, rfl⟩ := List.mem_map.1 member
    cases late
  · cases member

theorem exists_isEndless_startsOf {length : Int} {o : Onset} :
    (∃ p ∈ startsOf samples floor channel length o, isEndless p = true) ↔
      o.step.error = none ∧ ∃ order delay decay,
        o.step.ornament = some (.strum order delay decay) ∧
          ∃ k < o.step.playingOrder.length, (Binary64.ofInt (k * delay)).isInfinite = true := by
  cases clean : o.step.error with
  | some kind => simp [startsOf, Step.isError, clean]
  | none =>
    have inTime (v : Voice) : ¬∃ p ∈ o.step.samples.filterMap fun name =>
        (samples.find? name).map fun sample => Placed.one o.slot (sampleEvent v name sample),
        isEndless p = true := by
      rintro ⟨p, member, late⟩
      obtain ⟨name, sample, rfl⟩ := mem_samplePlaced member
      cases late
    have sounding : o.step.isError = false := by simp [Step.isError, clean]
    simp only [startsOf, sounding, starts, List.flatMap_cons, List.flatMap_nil, List.append_nil,
      List.mem_append, or_and_right, exists_or, Bool.false_eq_true, if_false, true_and]
    rw [Figure.placed.eq_def (.events (o.step.samples.filterMap _)), or_iff_left (inTime _)]
    cases ornament : o.step.ornament with
    | none =>
      refine iff_of_false ?_ (by simp)
      rintro ⟨p, member, late⟩
      simp only [Figure.placed] at member
      split at member
      · obtain ⟨note, -, rfl⟩ := List.mem_map.1 member
        cases late
      · cases member
    | some shape =>
      cases shape with
      | arpeggio order spacing duration =>
        simpa [Figure.placed] using not_isEndless_arpeggio
      | strum order delay decay =>
        simp [Figure.placed, exists_isEndless_strum]

theorem exists_isEndless_onsetPlaced {row : List Onset} :
    (∃ p ∈ onsetPlaced samples floor channel row, isEndless p = true) ↔
      ∃ o ∈ row, o.step.IsEndless := by
  induction row with
  | nil => simp [onsetPlaced, onsetFigures]
  | cons o later ih =>
    have ending : ¬∃ p ∈ (if o.step.tiesForward then [] else endsOf channel o), isEndless p = true := by
      split
      · simp
      · exact not_isEndless_endsOf
    rw [onsetPlaced_cons, List.exists_mem_cons_iff, ← ih]
    simp only [List.mem_append, or_and_right, exists_or]
    rw [or_iff_right not_isEndless_messagesOf, or_iff_left ending]
    apply or_congr_left
    unfold Step.IsEndless
    cases o.step.tiesBackward <;> simp [exists_isEndless_startsOf]

theorem exists_isEndless_instrumentOnsets {i : Instrument} :
    (∃ o ∈ instrumentOnsets c s i, o.step.IsEndless) ↔
      ∃ measure ∈ s.measuresOf i.name, ∃ step ∈ measure, step.IsEndless := by
  have steps : (instrumentOnsets c s i).map Onset.step = (s.measuresOf i.name).flatten :=
    map_step_onsets ..
  have row : (∃ o ∈ instrumentOnsets c s i, o.step.IsEndless) ↔
      ∃ step ∈ (instrumentOnsets c s i).map Onset.step, step.IsEndless := by
    simp
  rw [row, steps]
  simp only [List.mem_flatten]
  constructor
  · rintro ⟨step, ⟨measure, inSection, inMeasure⟩, late⟩
    exact ⟨measure, inSection, step, inMeasure, late⟩
  · rintro ⟨measure, inSection, step, inMeasure, late⟩
    exact ⟨step, ⟨measure, inSection, inMeasure⟩, late⟩

theorem exists_isEndless_sectionEvents :
    (∃ p ∈ sectionEvents c floor s instruments, isEndless p = true) ↔ s.IsEndless instruments := by
  have each (i : Instrument) : (∃ p ∈ onsetPlaced c.samples floor i.channel (instrumentOnsets c s i),
      isEndless p = true) ↔ ∃ measure ∈ s.measuresOf i.name, ∃ step ∈ measure, step.IsEndless :=
    exists_isEndless_onsetPlaced.trans exists_isEndless_instrumentOnsets
  simp only [MusicalSection.IsEndless, ← each, sectionEvents_eq, List.mem_flatMap]
  constructor
  · rintro ⟨p, ⟨i, listed, placed⟩, late⟩
    exact ⟨i, listed, p, placed, late⟩
  · rintro ⟨i, listed, p, placed, late⟩
    exact ⟨p, ⟨i, listed, placed⟩, late⟩

end Performance

/-! ### What ends by a slot -/

namespace Placed

/-- Whether events are placed before a slot, or end notes in it. -/
def EndsBy (bound : Int) (p : Placed) : Prop :=
  p.slot < bound ∨ p.slot = bound ∧ ∀ e ∈ p.events, e.isNoteOff = true

theorem EndsBy.mono {bound later : Int} {p : Placed} (ends : p.EndsBy bound) (le : bound ≤ later) :
    p.EndsBy later := by
  rcases ends with before | ⟨there, offs⟩
  · exact .inl (Int.lt_of_lt_of_le before le)
  · rcases Int.lt_or_eq_of_le le with less | rfl
    · exact .inl (there ▸ less)
    · exact .inr ⟨there, offs⟩

end Placed

namespace Performance

open Placed Fault

variable {samples : Table Sample} {floor channel : Int} {c : Score} {s : MusicalSection}
  {instruments : List Instrument}

theorem slot_arpeggio_lt {v : Voice} {notes : List Int} {spacing duration stop : Int} {k : Nat}
    {slot : Int} (lasting : 0 < duration) :
    ∀ p ∈ arpeggio v notes spacing duration stop k slot, p.slot < stop + duration := by
  fun_induction arpeggio v notes spacing duration stop k slot with
  | case1 => simp
  | case2 k slot ongoing note found ih =>
    refine List.forall_mem_cons.2 ⟨?_, List.forall_mem_cons.2 ⟨?_, ih⟩⟩ <;>
      simp only [Placed.one] <;> omega
  | case3 => simp

theorem slot_startsOf_lt {length : Int} {o : Onset} (playable : o.step.IsPlayable) (long : 1 ≤ length) :
    ∀ p ∈ startsOf samples floor channel length o, p.slot < o.slot + length := by
  intro p member
  unfold startsOf at member
  split at member
  · cases member
  · simp only [starts, List.flatMap_cons, List.flatMap_nil, List.append_nil, List.mem_append] at member
    rcases member with note | sample
    · cases ornament : o.step.ornament with
      | none =>
        simp only [ornament, Figure.placed] at note
        split at note
        · obtain ⟨_, _, rfl⟩ := List.mem_map.1 note
          simp only [Placed.one]
          omega
        · cases note
      | some shape =>
        have here := playable.ornament shape ornament
        cases shape with
        | arpeggio order spacing duration =>
          simp only [ornament, Figure.placed] at note
          have := slot_arpeggio_lt (Int.lt_of_lt_of_le Int.zero_lt_one here.2) p note
          omega
        | strum order delay decay =>
          simp only [ornament, Figure.placed] at note
          have := slot_strum p note
          omega
    · obtain ⟨_, _, rfl⟩ := mem_samplePlaced sample
      simp only [Placed.one]
      omega

theorem endsBy_endsOf {o : Onset} : ∀ p ∈ endsOf channel o, p.EndsBy o.finish := by
  intro p member
  refine .inr ⟨slot_endsOf p member, ?_⟩
  unfold endsOf ends at member
  split_ifs at member
  · cases member
  · obtain ⟨note, -, rfl⟩ := List.mem_map.1 member
    exact List.forall_mem_singleton.2 rfl
  · cases member

theorem endsBy_chainPlaced {bound : Int} {first : Onset} {rest : List Onset}
    (apart : (first :: rest).Pairwise fun o next => o.finish ≤ next.slot)
    (playable : ∀ o ∈ first :: rest, o.step.IsPlayable)
    (bounded : ∀ o ∈ first :: rest, o.finish ≤ bound) :
    ∀ p ∈ chainPlaced samples floor channel (first :: rest), p.EndsBy bound := by
  have long := one_le_chainLength fun o member => (playable o member).isLasting
  have within := chainLength_le apart
  have last := bounded (rest.getLastD first) List.getLastD_mem_cons
  have early (o : Onset) (member : o ∈ first :: rest) : o.slot < bound := by
    have := (playable o member).length
    have := bounded o member
    simp only [Onset.finish] at this
    omega
  intro p member
  simp only [chainPlaced, List.mem_append, List.mem_flatMap] at member
  rcases member with ((message | start) | ⟨o, later, message⟩) | ending
  · left
    rw [slot_messagesOf p message]
    exact early first (by simp)
  · left
    have := slot_startsOf_lt (playable first (by simp)) long p start
    omega
  · left
    rw [slot_messagesOf p message]
    exact early o (by simp [later])
  · exact (endsBy_endsOf p ending).mono last

theorem endsBy_onsetPlaced {bound : Int} {row : List Onset}
    (tied : Measure.TiedRow (fun _ => ()) (row.map Onset.step))
    (apart : row.Pairwise fun o next => o.finish ≤ next.slot)
    (playable : ∀ o ∈ row, o.step.IsPlayable) (bounded : ∀ o ∈ row, o.finish ≤ bound) :
    ∀ p ∈ onsetPlaced samples floor channel row, p.EndsBy bound := by
  intro p member
  rw [onsetPlaced_eq _ _ _ tied, List.mem_flatMap] at member
  obtain ⟨chain, inRow, placed⟩ := member
  cases chain with
  | nil => cases placed
  | cons first rest =>
    exact endsBy_chainPlaced ((chains_apart apart).1 _ inRow)
      (fun o inChain => playable o (mem_of_mem_chains inRow inChain))
      (fun o inChain => bounded o (mem_of_mem_chains inRow inChain)) p placed

theorem endsBy_sectionEvents (forward : 0 ≤ c.grid.stepsPerMeasure)
    (keeps : s.KeepsTime c.grid.stepsPerMeasure) :
    ∀ p ∈ sectionEvents c floor s instruments, p.EndsBy (nominalLength c s) := by
  intro p member
  rw [sectionEvents_eq, List.mem_flatMap] at member
  obtain ⟨i, -, placed⟩ := member
  have lasting : Measure.AllLasting (s.measuresOf i.name) := fun measure inSection step inMeasure =>
    (keeps.playable i.name measure inSection step inMeasure).isLasting
  obtain ⟨apart, bounded⟩ := instrumentOnsets_apart forward lasting (keeps.filled i.name)
  refine endsBy_onsetPlaced ?_ apart (fun o inRow => ?_) bounded p placed
  · rw [instrumentOnsets, map_step_onsets]
    exact (keeps.tied i.name).tiedRow
  · obtain ⟨measure, inSection, inMeasure⟩ := mem_instrumentOnsets inRow
    exact keeps.playable i.name measure inSection o.step inMeasure

/-! ### Slots -/

theorem length_sectionSlots_of_keepsTime (forward : 0 ≤ c.grid.stepsPerMeasure)
    (keeps : s.KeepsTime c.grid.stepsPerMeasure) {slots : List (List Event)}
    (done : sectionSlots c floor s instruments = .ok slots) :
    (slots.length : Int) = nominalLength c s + 1 := by
  have nominal := nominalLength_nonneg forward s
  have reached : extent (sectionEvents c floor s instruments) ≤ (nominalLength c s + 1).toNat := by
    refine extent_le fun p member => ?_
    rcases endsBy_sectionEvents forward keeps p member with before | ⟨there, -⟩ <;> omega
  rw [length_sectionSlots_eq (slot_of_isPlayable forward keeps.playable) done]
  omega

theorem slot_lt_of_keepsTime (forward : 0 ≤ c.grid.stepsPerMeasure)
    (keeps : s.KeepsTime c.grid.stepsPerMeasure) {slots : List (List Event)}
    (done : sectionSlots c floor s instruments = .ok slots) {slot : Nat} {events : List Event}
    (here : slots[slot]? = some events) {e : Event} (inSlot : e ∈ events)
    (starts : e.isNoteOff = false) : (slot : Int) < nominalLength c s := by
  have content := getElem?_sectionSlots (slot_of_isPlayable forward keeps.playable) done slot
  rw [here, Option.getD_some] at content
  rw [content] at inSlot
  obtain ⟨p, placed, same, inEvents⟩ := mem_eventsAt.1 inSlot
  rcases endsBy_sectionEvents forward keeps p placed with before | ⟨-, offs⟩
  · omega
  · rw [offs e inEvents] at starts
    cases starts

theorem reach_rowsFrom (forward : 0 ≤ c.grid.stepsPerMeasure) {sections : List MusicalSection}
    (each : ∀ s ∈ sections, s.KeepsTime c.grid.stepsPerMeasure) {rows : List (List (List Event))}
    (done : (sections.mapM fun s => sectionSlots c floor s instruments) = .ok rows) {offset : Int}
    (start : 0 ≤ offset) :
    max (offset + 1) (Row.reach (rowsFrom c offset sections rows)) =
      offset + (sections.map (nominalLength c)).sum + 1 := by
  induction sections generalizing rows offset with
  | nil =>
    rw [List.mapM_nil] at done
    cases done
    simp only [rowsFrom, List.mapIdx_nil, Row.reach, List.map_nil, List.foldr_nil, List.sum_nil]
    omega
  | cons s rest ih =>
    rw [List.mapM_cons] at done
    obtain ⟨own, performed, done⟩ := bind_eq_ok.1 done
    obtain ⟨later, joined, same⟩ := bind_eq_ok.1 done
    cases same
    obtain ⟨here, after⟩ := List.forall_mem_cons.1 each
    have nominal := nominalLength_nonneg forward s
    have length := length_sectionSlots_of_keepsTime forward here performed
    have tail := ih after joined (Int.add_nonneg start nominal)
    rw [rowsFrom_cons, Row.reach_cons, List.map_cons, List.sum_cons]
    dsimp only
    omega

theorem sum_nominalLength (c : Score) (sections : List MusicalSection) :
    (sections.map (nominalLength c)).sum =
      (sections.map MusicalSection.length).sum * c.grid.stepsPerMeasure := by
  induction sections with
  | nil => simp
  | cons s rest ih =>
    simp only [List.map_cons, List.sum_cons, Nat.cast_add, Int.add_mul, ih]
    rfl

end Performance

namespace Score

open Performance Fault

variable {c : Score} {floor : Int}

theorem length_timeline_of_keepsTime (forward : 0 ≤ c.grid.stepsPerMeasure)
    (each : ∀ s ∈ playedSections c, s.KeepsTime c.grid.stepsPerMeasure)
    (present : playedSections c ≠ []) {t : Timeline} (done : c.timeline floor = .ok t) :
    (t.slots.length : Int) = (((playedSections c).map MusicalSection.length).sum : Nat) *
      c.grid.stepsPerMeasure + 1 := by
  rw [timeline_eq_overlay c floor forward] at done
  obtain ⟨rows, performed, same⟩ := bind_eq_ok.1 done
  cases same
  have whole := reach_rowsFrom forward each performed (Int.le_refl 0)
  rw [Row.length_overlay, ← sum_nominalLength]
  cases played : playedSections c with
  | nil => exact absurd played present
  | cons s rest =>
    rw [played] at whole performed each
    rw [List.mapM_cons] at performed
    obtain ⟨own, here, performed⟩ := bind_eq_ok.1 performed
    obtain ⟨later, -, same⟩ := bind_eq_ok.1 performed
    cases same
    -- there is a row, so that the slot after the first section's nominal end is reached
    have length := length_sectionSlots_of_keepsTime forward (each s (by simp)) here
    have nominal := nominalLength_nonneg forward s
    rw [rowsFrom_cons, Row.reach_cons] at whole ⊢
    dsimp only at whole ⊢
    omega

/-- A section that keeps time takes its nominal slots and one more, in which notes only end, and a
timeline of such sections takes all nominal slots and one more. It fails just if a strummed note comes
later than a number of the format can say. -/
theorem sections_keep_time (forward : 0 < c.grid.stepsPerMeasure) :
    (∀ s : MusicalSection, s.KeepsTime c.grid.stepsPerMeasure → ∀ instruments : List Instrument,
      FailsJust (sectionSlots c floor s instruments) .numberTooLarge (s.IsEndless instruments) ∧
      ∀ slots, sectionSlots c floor s instruments = .ok slots →
        (slots.length : Int) = s.length * c.grid.stepsPerMeasure + 1 ∧
        (∀ (slot : Nat) (events : List Event), slots[slot]? = some events →
          ∀ e ∈ events, e.isNoteOff = false → (slot : Int) < s.length * c.grid.stepsPerMeasure) ∧
        ∀ events ∈ slots.getLast?, ∀ e ∈ events, e.isNoteOff = true) ∧
    ((∀ s ∈ playedSections c, s.KeepsTime c.grid.stepsPerMeasure) → playedSections c ≠ [] →
      FailsJust (c.timeline floor) .numberTooLarge
        (∃ s ∈ playedSections c, s.IsEndless (c.instruments.filter (·.selected))) ∧
      ∀ t, c.timeline floor = .ok t →
        (t.slots.length : Int) = (((playedSections c).map MusicalSection.length).sum : Nat) *
          c.grid.stepsPerMeasure + 1) := by
  have forward := Int.le_of_lt forward
  constructor
  · intro s keeps instruments
    have just := @sectionSlots_failsJust_of_isPlayable c floor forward s keeps.playable instruments
    rw [exists_isEndless_sectionEvents] at just
    refine ⟨just, fun slots done => ?_⟩
    have length := length_sectionSlots_of_keepsTime forward keeps done
    have early (slot : Nat) (events : List Event) (here : slots[slot]? = some events) (e : Event)
        (inSlot : e ∈ events) (starts : e.isNoteOff = false) : (slot : Int) < nominalLength c s :=
      slot_lt_of_keepsTime forward keeps done here inSlot starts
    refine ⟨length, early, fun events last e inSlot => ?_⟩
    rw [Option.mem_def, List.getLast?_eq_getElem?] at last
    by_contra starts
    have := early _ events last e inSlot (Bool.eq_false_iff.2 starts)
    omega
  · intro each present
    have just := @timeline_failsJust_of_isPlayable c floor forward fun s played => (each s played).playable
    simp only [Score.IsEndless, exists_isEndless_sectionEvents] at just
    exact ⟨just, fun t done => length_timeline_of_keepsTime forward each present done⟩

def heldArpeggio : MusicalSection :=
  { name := "a"
    measures := [("s", [
      [{ kind := .synth, pitches := [60, 64], length := 3, tiesForward := true,
         ornament := some (.arpeggio [1, 2] 2 2) }],
      [{ kind := .synth, pitches := [60, 64], length := 2, tiesBackward := true,
         ornament := some (.arpeggio [1, 2] 2 2) }]])] }

def arpeggiated : Score :=
  { grid := ⟨1, 3⟩
    instruments := [{ name := "s" }]
    playlist := [{ name := "a" }, { name := "a" }]
    sections := [heldArpeggio] }

theorem sections_keep_time_of_heldArpeggio :
    (∃ slots, sectionSlots arpeggiated 20 heldArpeggio arpeggiated.instruments = .ok slots ∧
      (slots.length : Int) = 7) ∧
    ∃ t, arpeggiated.timeline 20 = .ok t ∧ (t.slots.length : Int) = 13 := by
  have keeps : heldArpeggio.KeepsTime arpeggiated.grid.stepsPerMeasure :=
    MusicalSection.keepsTime_of_entries (by decide) (by decide) (by decide)
  have played : ∀ s ∈ playedSections arpeggiated, s = heldArpeggio := by decide +kernel
  have own : (sectionSlots arpeggiated 20 heldArpeggio arpeggiated.instruments).toOption.any
      (fun _ => true) = true := by decide +kernel
  have whole : (arpeggiated.timeline 20).toOption.any (fun _ => true) = true := by decide +kernel
  obtain ⟨slots, laid, -⟩ := exists_ok_of_any own
  obtain ⟨t, done, -⟩ := exists_ok_of_any whole
  obtain ⟨one, all⟩ := @sections_keep_time arpeggiated 20 (by decide)
  refine ⟨⟨slots, laid, ?_⟩, t, done, ?_⟩
  · exact ((one heldArpeggio keeps arpeggiated.instruments).2 slots laid).1
  · exact (all (fun s inPlaylist => played s inPlaylist ▸ keeps) (by decide +kernel)).2 t done

def lateStrum : MusicalSection :=
  { name := "a"
    measures := [("s", [[{ kind := .synth, pitches := [60, 64], length := 48,
                           ornament := some (.strum [1, 2] (2 ^ 1024) 0) }]])] }

theorem lateStrum_has_no_slots :
    lateStrum.KeepsTime 48 ∧ sectionSlots {} 20 lateStrum [{ name := "s" }] = .error .numberTooLarge :=
  ⟨MusicalSection.keepsTime_of_entries (by decide) (by decide) (by decide), by decide +kernel⟩

end Score

end ScoreScript
