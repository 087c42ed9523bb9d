import ScoreScript.Proofs.Faults

set_option autoImplicit false

namespace ScoreScript

open Fault

namespace Performance

variable {c : Score} {floor : Int}

theorem perform_failsJust (slots : Placed.Slots) {p : Placed} (nonneg : 0 ≤ p.slot) :
    FailsJust (perform slots p) .numberTooLarge (isEndless p = true) := by
  unfold perform
  by_cases late : isEndless p = true
  · rw [if_pos late]
    exact ⟨fun _ => rfl, fun inTime => absurd late inTime⟩
  · rw [if_neg late, Placed.add_of_nonneg slots nonneg]
    exact ⟨fun bad => absurd bad late, fun _ => ⟨_, rfl⟩⟩

theorem sectionSlots_failsJust {s : MusicalSection} {instruments : List Instrument}
    (forward : ∀ f ∈ sectionFigures c floor s instruments, f.isBackward = false)
    (nonneg : ∀ p ∈ sectionEvents c floor s instruments, 0 ≤ p.slot) :
    FailsJust (sectionSlots c floor s instruments) .numberTooLarge
      (∃ p ∈ sectionEvents c floor s instruments, isEndless p = true) := by
  unfold sectionSlots
  rw [Figure.foldlM_perform _ forward]
  refine FailsJust.map ?_ Array.toList
  exact FailsJust.foldlM (fun _ => True) (fun _ _ => trivial)
    (fun slots _ p placed => perform_failsJust (p := p) slots (nonneg p placed)) trivial

theorem isBackward_of_isPlayable {s : MusicalSection} {instruments : List Instrument}
    (playable : s.AllSteps Step.IsPlayable) :
    ∀ f ∈ sectionFigures c floor s instruments, f.isBackward = false := by
  intro f member
  obtain ⟨i, -, inRow⟩ := List.mem_flatMap.1 member
  rw [instrumentFigures, measuresFigures_eq] at inRow
  refine isBackward_of_mem_onsetFigures (fun o member order spacing duration shape => ?_) f inRow
  obtain ⟨measure, inSection, inMeasure⟩ := mem_instrumentOnsets member
  have bounds := ((playable i.name measure inSection o.step inMeasure).ornament _ shape).1
  omega

theorem slot_of_isPlayable (forward : 0 ≤ c.grid.stepsPerMeasure) {s : MusicalSection}
    {instruments : List Instrument} (playable : s.AllSteps Step.IsPlayable) :
    ∀ p ∈ sectionEvents c floor s instruments, 0 ≤ p.slot :=
  slot_sectionEvents forward fun i _ measure inSection step inMeasure =>
    (playable i.name measure inSection step inMeasure).isLasting

theorem sectionSlots_failsJust_of_isPlayable (forward : 0 ≤ c.grid.stepsPerMeasure)
    {s : MusicalSection} (playable : s.AllSteps Step.IsPlayable) (instruments : List Instrument) :
    FailsJust (sectionSlots c floor s instruments) .numberTooLarge
      (∃ p ∈ sectionEvents c floor s instruments, isEndless p = true) :=
  sectionSlots_failsJust (isBackward_of_isPlayable playable) (slot_of_isPlayable forward playable)

end Performance

open Performance

namespace Score

variable {c : Score} {floor : Int}

def IsEndless (c : Score) (floor : Int) : Prop :=
  ∃ s ∈ playedSections c, ∃ p ∈ sectionEvents c floor s (c.instruments.filter (·.selected)),
    isEndless p = true

theorem timeline_failsJust_of_isPlayable (forward : 0 ≤ c.grid.stepsPerMeasure)
    (playable : ∀ s ∈ playedSections c, s.AllSteps Step.IsPlayable) :
    FailsJust (c.timeline floor) .numberTooLarge (c.IsEndless floor) := by
  have rows : FailsJust ((playedSections c).mapM fun s =>
      sectionSlots c floor s (c.instruments.filter (·.selected))) .numberTooLarge (c.IsEndless floor) :=
    FailsJust.mapM fun s played => sectionSlots_failsJust_of_isPlayable forward (playable s played) _
  have joined := rows.map fun rows =>
    (Row.overlay (⟨0, []⟩ :: rowsFrom c 0 (playedSections c) rows)).toArray
  rw [← joinSections_eq_overlay forward #[] (Int.le_refl 0)] at joined
  exact joined.map _

theorem isPlayable_of_isOrnamented (regular : c.Regular) (ornamented : c.IsOrnamented)
    {s : MusicalSection} (loaded : s ∈ c.sections) : s.AllSteps Step.IsPlayable := by
  intro instrument measure inSection step inMeasure
  refine ⟨((regular.music s loaded).lasting instrument measure inSection step inMeasure).length, ?_⟩
  intro shape found
  have ranged := ornamented s loaded instrument measure inSection step inMeasure shape found
  cases shape with
  | arpeggio => exact ⟨by linarith [ranged.1.1], by linarith [ranged.2.1]⟩
  | strum => trivial

theorem timeline_failsJust_of_isOrnamented (regular : c.Regular) (ornamented : c.IsOrnamented) :
    FailsJust (c.timeline floor) .numberTooLarge (c.IsEndless floor) :=
  timeline_failsJust_of_isPlayable (Int.le_of_lt regular.forward) fun _ played =>
    isPlayable_of_isOrnamented regular ornamented (mem_sections_of_mem_playedSections played)

theorem timeline_failsJust {lines : List Script.Line} (regular : c.Regular)
    (written : c.IsWritten lines) :
    FailsJust (c.timeline floor) .numberTooLarge (c.IsEndless floor) :=
  timeline_failsJust_of_isOrnamented regular written.isOrnamented

def HasEndlessStrum (c : Score) : Prop :=
  ∃ s ∈ c.sections, ∃ instrument, ∃ measure ∈ s.measuresOf instrument, ∃ step ∈ measure,
    ∃ order delay decay, step.ornament = some (.strum order delay decay) ∧ 2 ^ 1019 ≤ order.length

theorem hasEndlessStrum_of_isEndless (ornamented : c.IsOrnamented) (endless : c.IsEndless floor) :
    c.HasEndlessStrum := by
  obtain ⟨s, played, p, placed, late⟩ := endless
  obtain ⟨i, -, measure, inSection, step, inMeasure, gives⟩ := gives_of_mem_sectionEvents placed
  obtain ⟨e, inEvents, late⟩ := List.any_eq_true.1 late
  obtain ⟨order, delay, decay, shape, k, place, infinite⟩ :=
    strum_of_isInfinite_delay (gives e inEvents) late
  have loaded := mem_sections_of_mem_playedSections played
  refine ⟨s, loaded, i.name, measure, inSection, step, inMeasure, order, delay, decay, shape, ?_⟩
  by_contra few
  have bounds := (ornamented s loaded i.name measure inSection step inMeasure _ shape).1
  have early : (k : Int) * delay ≤ k * 15 :=
    Int.mul_le_mul_of_nonneg_left bounds.2 (Int.natCast_nonneg k)
  have nonneg : 0 ≤ (k : Int) * delay := Int.mul_nonneg (Int.natCast_nonneg k) (by omega)
  have finite := Binary64.isInfinite_ofInt nonneg (by omega)
  rw [finite] at infinite
  cases infinite

theorem le_length_of_isEndless {lines : List Script.Line} (written : c.IsWritten lines)
    (endless : c.IsEndless floor) :
    ∃ name order delay decay, c.ornaments.find? name = some (.strum order delay decay) ∧
      2 ^ 1019 ≤ order.length := by
  obtain ⟨s, loaded, instrument, measure, inSection, step, inMeasure, order, delay, decay, shape, many⟩ :=
    hasEndlessStrum_of_isEndless written.isOrnamented endless
  have own := written.music s loaded instrument measure inSection step inMeasure
  obtain ⟨name, found⟩ := own.ornament _ shape
  exact ⟨name, order, delay, decay, found, many⟩

end Score

namespace Compilation

theorem ofText_eq (settings : Settings) (earlier : Option Selection) (text : Text) :
    ofText settings earlier text = do
      let reading ← Score.ofSections settings (Script.parse text).1
      let timeline ← timelineOf settings (reading.score.restore earlier)
      return {
        score := reading.score.restore earlier
        timeline
        reports := (Script.parse text).2 ++ reading.reports
        selection := Selection.after reading.score earlier } :=
  rfl

/-- With the packaged settings a script does not compile if it gives a controller an infinite value. All
other scripts compile, unless they have a strum of so many notes that double precision cannot say when
the last one starts. -/
theorem compiles_unless_infinite {settings : Settings}
    (packaged : Settings.ofPartial .null = .ok settings) (earlier : Option Selection) (text : Text) :
    (Score.HasInfiniteController settings (Script.parse text).1 →
      ofText settings earlier text = .error .infiniteNumber) ∧
    (¬Score.HasInfiniteController settings (Script.parse text).1 →
      (∃ c, ofText settings earlier text = .ok c) ∨
      ofText settings earlier text = .error .numberTooLarge ∧
        ∃ r, Score.ofSections settings (Script.parse text).1 = .ok r ∧
          ∃ name order delay decay, r.score.ornaments.find? name = some (.strum order delay decay) ∧
            2 ^ 1019 ≤ order.length) := by
  have numeric := Settings.isNumeric_packaged packaged
  have reading := Score.ofSections_failsJust numeric (Script.parse text).1
  rw [ofText_eq]
  constructor
  · intro infinite
    rw [reading.fails infinite]
    rfl
  · intro finite
    obtain ⟨r, read⟩ := reading.works finite
    obtain ⟨floor, low⟩ := Settings.exists_toInt numeric.velocityFloor
    have written := (Score.isWritten_ofSections (Settings.isData_packaged packaged) read).restore earlier
    have music := @Score.timeline_failsJust _ floor _ ((Score.regular_ofSections read).restore earlier)
      written
    rw [read]
    by_cases endless : (r.score.restore earlier).IsEndless floor
    · right
      have many := Score.le_length_of_isEndless written endless
      refine ⟨?_, r, rfl, many⟩
      simp only [timelineOf, low]
      change ((r.score.restore earlier).timeline floor >>= fun _ => _) = _
      rw [music.fails endless]
      rfl
    · left
      obtain ⟨timeline, laid⟩ := music.works endless
      refine ⟨_, bind_eq_ok.2 ⟨r, rfl, bind_eq_ok.2 ⟨timeline, ?_, rfl⟩⟩⟩
      exact bind_eq_ok.2 ⟨floor, low, laid⟩

def loudController : Text := "[composition]\ncc: x=1.e300"

def infiniteController : Text := "[composition]\ncc: x=1.e400"

theorem loudController_compiles : ∃ settings, Settings.ofPartial .null = .ok settings ∧
    (∃ c, ofText settings none loudController = .ok c) ∧
    ofText settings none infiniteController = .error .infiniteNumber := by
  have plain : ((do Score.ofSections (← Settings.ofPartial .null) (Script.parse loudController).1 :
      Except Fault Score.Reading).toOption.any fun r => r.score.ornaments.isEmpty) = true := by
    decide +kernel
  obtain ⟨r, read, empty⟩ := exists_ok_of_any plain
  obtain ⟨settings, packaged, read⟩ := bind_eq_ok.1 read
  refine ⟨settings, packaged, ?_, ?_⟩
  · have finite : ¬Score.HasInfiniteController settings (Script.parse loudController).1 := by
      rintro (named | ⟨before, -, line, member, -⟩)
      · revert named
        decide +kernel
      · have free : Score.controlLines (Script.parse loudController).1 = [] := by decide +kernel
        rw [free] at member
        cases member
    rcases (compiles_unless_infinite packaged none loudController).2 finite with compiled | endless
    · exact compiled
    · obtain ⟨-, same, read', name, order, delay, decay, found, -⟩ := endless
      rw [read] at read'
      cases read'
      rw [List.isEmpty_iff.1 empty] at found
      cases found
  · exact (compiles_unless_infinite packaged none infiniteController).1 (.inl (by decide +kernel))

theorem infiniteController_not_compiled : ¬∃ c, packaged infiniteController = .ok c := by
  have fails : (packaged infiniteController).toOption.isNone = true := by decide +kernel
  intro ⟨c, compiled⟩
  rw [compiled] at fails
  cases fails

end Compilation

end ScoreScript
