import ScoreScript.Proofs.Parallel

set_option autoImplicit false

namespace ScoreScript

namespace Fault

def Viewed {σ μ α : Type} (view : σ → μ → α) (outcome : σ → Except Fault α) : Prop :=
  ∃ whole : Except Fault μ, ∀ s, outcome s = whole.map (view s)

variable {σ μ ν α β : Type} {view : σ → μ → α} {outcome : σ → Except Fault α}

theorem Viewed.ok (view : σ → μ → α) (m : μ) : Viewed view fun s => .ok (view s m) :=
  ⟨.ok m, fun _ => rfl⟩

theorem Viewed.error (view : σ → μ → α) (fault : Fault) : Viewed view fun _ => .error fault :=
  ⟨.error fault, fun _ => rfl⟩

theorem Viewed.bind {view' : σ → ν → β} {next : σ → α → Except Fault β} (viewed : Viewed view outcome)
    (later : ∀ m, Viewed view' fun s => next s (view s m)) :
    Viewed view' fun s => outcome s >>= next s := by
  obtain ⟨whole, same⟩ := viewed
  obtain rfl : outcome = fun s => whole.map (view s) := funext same
  cases whole with
  | error fault => exact .error view' fault
  | ok m => exact later m

theorem Viewed.foldlM {step : α → β → Except Fault α} {item : σ → ν → β}
    (steps : ∀ m n, Viewed view fun s => step (view s m) (item s n)) (items : List ν) (m : μ) :
    Viewed view fun s => (items.map (item s)).foldlM step (view s m) := by
  induction items generalizing m with
  | nil => exact .ok view m
  | cons n rest ih =>
    simp only [List.map_cons, List.foldlM_cons]
    exact (steps m n).bind ih

end Fault

open Fault Performance

namespace Score

structure HasStep (c : Score) (i : Instrument) (step : Step) : Prop where
  selected : i ∈ c.instruments.filter (·.selected)
  played : ∃ s ∈ playedSections c, ∃ measure ∈ s.measuresOf i.name, step ∈ measure

/-- An event with the step of the score that gives it. -/
structure Mark (c : Score) (floor : Int) where
  instrument : Instrument
  step : Step
  event : Event
  hasStep : c.HasStep instrument step
  gives : Gives c.samples floor instrument.channel step event

namespace Mark

variable {c : Score} {floor : Int}

def moved (shift : Shift) (m : c.Mark floor) : Event := m.event.transposed (shift m.instrument.name m.step)

def slotsOf (shift : Shift) (rows : Array (List (c.Mark floor))) : Placed.Slots :=
  rows.map (List.map (moved shift))

def placedOf (shift : Shift) (p : Int × List (c.Mark floor)) : Placed := ⟨p.1, p.2.map (moved shift)⟩

end Mark

open Mark

def KeepsMarks (c : Score) (floor : Int) (outcome : Shift → Except Fault Placed.Slots) : Prop :=
  Viewed (@slotsOf c floor) outcome

variable {c : Score} {floor : Int} (rows : Array (List (c.Mark floor)))

theorem putAt_slotsOf (shift : Shift) (slot : Nat) (marks : List (c.Mark floor)) :
    Placed.putAt (slotsOf shift rows) slot (marks.map (moved shift)) =
      slotsOf shift ((rows ++ Array.replicate (slot + 1 - rows.size) []).modify slot (· ++ marks)) := by
  have grown : slotsOf shift rows ++ Array.replicate (slot + 1 - rows.size) [] =
      slotsOf shift (rows ++ Array.replicate (slot + 1 - rows.size) []) := by
    simp [slotsOf]
  have sameSize : (slotsOf shift rows).size = rows.size := Array.size_map ..
  rw [Placed.putAt, sameSize, grown]
  refine Array.ext_getElem? fun other => ?_
  simp only [slotsOf, Array.getElem?_map, Array.getElem?_modify]
  split
  · simp only [Option.map_map, Function.comp_def, List.map_append]
  · rfl

theorem keepsMarks_add (p : Int × List (c.Mark floor)) :
    c.KeepsMarks floor fun shift => Placed.add (slotsOf shift rows) (placedOf shift p) := by
  have sameSize (shift : Shift) : (slotsOf shift rows).size = rows.size := Array.size_map ..
  unfold Placed.add
  simp only [sameSize, placedOf]
  cases positionIn rows.size p.1 with
  | negSucc n => exact .error _ _
  | ofNat slot =>
    simp only [putAt_slotsOf]
    exact .ok _ _

theorem keepsMarks_perform (p : Int × List (c.Mark floor)) :
    c.KeepsMarks floor fun shift => perform (slotsOf shift rows) (placedOf shift p) := by
  have late (shift : Shift) : isEndless (placedOf shift p) = p.2.any fun m => m.event.delay.isInfinite := by
    rw [isEndless, placedOf, List.any_map]
    simp only [Function.comp_def, moved, Event.delay_transposed]
  unfold perform
  simp only [late]
  split
  · exact .error _ _
  · exact keepsMarks_add rows p

variable {i : Instrument} {step : Step}

theorem exists_marks (hasStep : c.HasStep i step) {placed : List Placed}
    (gives : ∀ p ∈ placed, ∀ e ∈ p.events, Gives c.samples floor i.channel step e) :
    ∃ marks : List (Int × List (c.Mark floor)), ∀ shift : Shift,
      placed.map (Placed.transposed (shift i.name step)) = marks.map (placedOf shift) := by
  induction placed with
  | nil => exact ⟨[], fun _ => rfl⟩
  | cons p rest ih =>
    obtain ⟨here, later⟩ := List.forall_mem_cons.1 gives
    obtain ⟨marks, same⟩ := ih later
    refine ⟨(p.slot, p.events.pmap (Mark.mk i step · hasStep) here) :: marks, fun shift => ?_⟩
    rw [List.map_cons, List.map_cons, same]
    simp [placedOf, List.map_pmap, Placed.transposed, moved]

theorem keepsMarks_figure (hasStep : c.HasStep i step) {f : Figure}
    (gives : ∀ p ∈ f.placed, ∀ e ∈ p.events, Gives c.samples floor i.channel step e) :
    c.KeepsMarks floor fun shift => (f.transposed (shift i.name step)).perform (slotsOf shift rows) := by
  cases backward : f.isBackward with
  | true =>
    have fails (shift : Shift) : (f.transposed (shift i.name step)).perform (slotsOf shift rows) =
        .error .outOfRange := by
      rw [Figure.perform.eq_def, Figure.isBackward_transposed, if_pos backward]
    simp only [fails]
    exact .error _ _
  | false =>
    obtain ⟨marks, same⟩ := exists_marks hasStep gives
    have performed (shift : Shift) : (f.transposed (shift i.name step)).perform (slotsOf shift rows) =
        (marks.map (placedOf shift)).foldlM perform (slotsOf shift rows) := by
      rw [Figure.perform_eq_foldlM _ (by rwa [Figure.isBackward_transposed]), Figure.placed_transposed, same]
    simp only [performed]
    exact Viewed.foldlM keepsMarks_perform marks rows

theorem keepsMarks_figures (hasStep : c.HasStep i step) {figures : List Figure}
    (gives : ∀ f ∈ figures, ∀ p ∈ f.placed, ∀ e ∈ p.events, Gives c.samples floor i.channel step e) :
    c.KeepsMarks floor fun shift =>
      (figures.map (Figure.transposed (shift i.name step))).foldlM Figure.perform (slotsOf shift rows) := by
  induction figures generalizing rows with
  | nil => exact .ok _ rows
  | cons f rest ih =>
    obtain ⟨here, later⟩ := List.forall_mem_cons.1 gives
    simp only [List.map_cons, List.foldlM_cons]
    exact (keepsMarks_figure rows hasStep here).bind fun rows => ih rows later

theorem keepsMarks_row {row : List Onset} (hasSteps : ∀ o ∈ row, c.HasStep i o.step) :
    c.KeepsMarks floor fun shift =>
      (onsetFigures c.samples floor i.channel (row.map (Onset.transposed (shift i.name)))).foldlM
        Figure.perform (slotsOf shift rows) := by
  induction row generalizing rows with
  | nil => exact .ok _ rows
  | cons o later ih =>
    obtain ⟨here, rest⟩ := List.forall_mem_cons.1 hasSteps
    simp only [onsetFigures_transposed_cons, List.foldlM_append]
    exact (keepsMarks_figures rows here gives_of_mem_stepFigures).bind fun rows => ih rows rest

theorem keepsMarks_section {s : MusicalSection} (inPlayed : s ∈ playedSections c)
    {instruments : List Instrument} (selected : ∀ i ∈ instruments, i ∈ c.instruments.filter (·.selected)) :
    c.KeepsMarks floor fun shift =>
      (sectionFigures (c.transposed shift) floor (s.transposed shift) instruments).foldlM Figure.perform
        (slotsOf shift rows) := by
  induction instruments generalizing rows with
  | nil => exact .ok _ rows
  | cons i rest ih =>
    obtain ⟨here, later⟩ := List.forall_mem_cons.1 selected
    simp only [sectionFigures, List.flatMap_cons, List.foldlM_append, instrumentFigures_transposed]
    refine (keepsMarks_row rows fun o inRow => ?_).bind fun rows => ih rows later
    obtain ⟨measure, inSection, inMeasure⟩ := mem_instrumentOnsets inRow
    exact ⟨here, s, inPlayed, measure, inSection, inMeasure⟩

def Mark.rowsOf (shift : Shift) (rows : List (List (c.Mark floor))) : List (List Event) :=
  rows.map (List.map (moved shift))

theorem viewed_sectionSlots {s : MusicalSection} (inPlayed : s ∈ playedSections c) :
    Viewed (@rowsOf c floor) fun shift =>
      sectionSlots (c.transposed shift) floor (s.transposed shift) (c.instruments.filter (·.selected)) := by
  have start (shift : Shift) :
      Array.replicate (nominalLength (c.transposed shift) (s.transposed shift) + 1).toNat [] =
        slotsOf shift (Array.replicate (nominalLength c s + 1).toNat ([] : List (c.Mark floor))) := by
    rw [nominalLength_transposed]
    simp [slotsOf]
  unfold sectionSlots
  simp only [start]
  refine (keepsMarks_section _ inPlayed fun i member => member).bind fun rows => ?_
  refine ⟨.ok rows.toList, fun shift => congrArg Except.ok ?_⟩
  simp [slotsOf, rowsOf]

theorem keepsMarks_joinSections {sections : List MusicalSection}
    (inPlayed : ∀ s ∈ sections, s ∈ playedSections c) (offset : Int) :
    c.KeepsMarks floor fun shift =>
      joinSections (c.transposed shift) floor (c.instruments.filter (·.selected)) (slotsOf shift rows) offset
        (sections.map (MusicalSection.transposed shift)) := by
  induction sections generalizing rows offset with
  | nil => exact .ok _ rows
  | cons s rest ih =>
    obtain ⟨here, later⟩ := List.forall_mem_cons.1 inPlayed
    simp only [List.map_cons, joinSections, nominalLength_transposed]
    refine (viewed_sectionSlots here).bind fun own => ?_
    have placed (shift : Shift) : placedFrom offset (rowsOf shift own) =
        (own.zipIdx.map fun row => (offset + row.2, row.1)).map (placedOf shift) := by
      simp only [placedFrom, rowsOf, List.zipIdx_map, List.map_map]
      rfl
    simp only [placed, Placed.addAll]
    refine (Viewed.foldlM keepsMarks_add _ rows).bind fun rows => ih rows later _

theorem viewed_timeline :
    Viewed (fun shift (marks : List (List (c.Mark floor))) =>
        { slots := rowsOf shift marks, stepsPerBeat := c.grid.stepsPerBeat, beats := c.grid.beats, bpm := c.bpm })
      fun shift => (c.transposed shift).timeline floor := by
  unfold timeline
  simp only [playedSections_transposed]
  have joined := @keepsMarks_joinSections c floor #[] _ (fun s member => member) 0
  have empty (shift : Shift) : slotsOf shift (#[] : Array (List (c.Mark floor))) = #[] := by
    simp [slotsOf]
  simp only [KeepsMarks, empty] at joined
  refine joined.bind fun rows => ?_
  refine ⟨.ok rows.toList, fun shift => congrArg Except.ok ?_⟩
  simp [slotsOf, rowsOf, transposed]

theorem transposed_zero : c.transposed (fun _ _ => 0) = c := by
  have still (s : Step) : s.transposed 0 = s := by simp [Step.transposed]
  have rests : Measure.transposed (fun _ => 0) = id := by
    funext measure
    simp [Measure.transposed, still]
  have sections : MusicalSection.transposed (fun _ _ => 0) = id := by
    funext s
    simp [MusicalSection.transposed, rests]
  simp [transposed, sections]

theorem Mark.moved_zero (m : c.Mark floor) : m.moved (fun _ _ => 0) = m.event := by
  simp [moved, Event.transposed]

theorem exists_marks_of_timeline {timeline : Timeline} (performed : c.timeline floor = .ok timeline) :
    ∃ marks : List (List (c.Mark floor)), timeline.slots = marks.map (List.map Mark.event) ∧
      ∀ shift, (c.transposed shift).timeline floor =
        .ok { timeline with slots := marks.map (List.map (Mark.moved shift)) } := by
  obtain ⟨whole, seen⟩ := @viewed_timeline c floor
  have still := seen fun _ _ => 0
  beta_reduce at still
  rw [transposed_zero, performed] at still
  cases whole with
  | error fault => cases still
  | ok marks =>
    obtain rfl := Except.ok.inj still
    refine ⟨marks, ?_, seen⟩
    simp only [rowsOf, show moved (fun _ _ => 0) = @Mark.event c floor from funext Mark.moved_zero]

end Score

open Notation

/-- Words of a synth that name neither pitches nor samples give the same step in every transposition where
they stay in range, but for the pitches, which all move by the same interval. And the events of a timeline
move with the notes of their steps, whatever the intervals. -/
theorem transposition_moves_notes_alike :
    (∀ (ctx : Context) (chord word : Text) (length t u : Int), ctx.category = .synth →
      (∀ part ∈ (undotted word).splitOn (.char '/'), ctx.IsUnnamed part) →
      (stepOf (ctx.inTransposition t) word length chord).error = none →
      (stepOf (ctx.inTransposition u) word length chord).error = none →
      stepOf (ctx.inTransposition u) word length chord =
        (stepOf (ctx.inTransposition t) word length chord).transposed (u - t)) ∧
    ∀ (c : Score) (floor : Int) (timeline : Timeline), c.timeline floor = .ok timeline →
      ∃ marks : List (List (c.Mark floor)), timeline.slots = marks.map (List.map Score.Mark.event) ∧
        ∀ shift, (c.transposed shift).timeline floor =
          .ok { timeline with slots := marks.map (List.map (Score.Mark.moved shift)) } :=
  ⟨fun _ _ _ _ _ _ synth unnamed clean clean' => stepOf_transposed synth unnamed clean clean',
    fun _ _ _ performed => Score.exists_marks_of_timeline performed⟩

def strummer : Context :=
  { octave := 5, literals := [("k", 36)], ornaments := [("d", some (.strum [1, 2, 3, 4] 5 10))] }

def strummed : Text := "'613/d/chord(2)-"

def strummedScore : Score :=
  { instruments := [{ name := "s" }]
    playlist := [{ name := "a" }]
    sections := [⟨"a", [("s", [[stepOf (strummer.inTransposition 0) strummed 12 "1M"]])]⟩] }

theorem transposition_moves_notes_alike_of_strummed :
    stepOf (strummer.inTransposition 2) strummed 12 "1M" =
        (stepOf (strummer.inTransposition 0) strummed 12 "1M").transposed 2 ∧
      ∃ timeline, strummedScore.timeline 20 = .ok timeline ∧
        ∃ marks : List (List (strummedScore.Mark 20)),
          timeline.slots = marks.map (List.map Score.Mark.event) ∧
          (strummedScore.transposed fun _ _ => 2).timeline 20 =
            .ok { timeline with slots := marks.map (List.map (Score.Mark.moved fun _ _ => 2)) } := by
  obtain ⟨steps, timelines⟩ := transposition_moves_notes_alike
  constructor
  · exact steps strummer "1M" strummed 12 0 2 rfl (by decide +kernel) (by decide +kernel) (by decide +kernel)
  · have performs : ((strummedScore.timeline 20).toOption.any fun _ => true) = true := by decide +kernel
    obtain ⟨timeline, performed, -⟩ := exists_ok_of_any performs
    obtain ⟨marks, same, moves⟩ := timelines strummedScore 20 timeline performed
    exact ⟨timeline, performed, marks, same, moves fun _ _ => 2⟩

end ScoreScript
