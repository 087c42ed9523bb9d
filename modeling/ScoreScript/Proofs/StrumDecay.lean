import ScoreScript.Proofs.SectionSize

set_option autoImplicit false

namespace ScoreScript.Performance

open Fault Placed

section Velocities

variable {velocity percent floor : Int}

theorem loss_nonneg (low : 0 ≤ velocity) (loss : 0 ≤ percent) : 0 ≤ Int.fdiv (velocity * percent) 100 :=
  Int.fdiv_nonneg (Int.mul_nonneg low loss) (by norm_num)

theorem floor_le_decayVelocity (velocity percent floor : Int) :
    floor ≤ decayVelocity velocity percent floor :=
  le_max_left ..

theorem decayVelocity_le (low : 0 ≤ velocity) (loss : 0 ≤ percent) (above : floor ≤ velocity) :
    decayVelocity velocity percent floor ≤ velocity :=
  max_le above (by have := loss_nonneg low loss; omega)

theorem decayVelocity_of_le (low : 0 ≤ velocity) (loss : 0 ≤ percent) (below : velocity ≤ floor) :
    decayVelocity velocity percent floor = floor :=
  max_eq_left (by have := loss_nonneg low loss; omega)

def fadedVelocity (percent floor velocity : Int) (k : Nat) : Int :=
  (decayVelocity · percent floor)^[k] velocity

theorem fadedVelocity_succ (percent floor velocity : Int) (k : Nat) :
    fadedVelocity percent floor velocity (k + 1) =
      decayVelocity (fadedVelocity percent floor velocity k) percent floor :=
  Function.iterate_succ_apply' ..

theorem isData_fadedVelocity (loss : 0 ≤ percent) (data : IsData velocity) (low : IsData floor) (k : Nat) :
    IsData (fadedVelocity percent floor velocity k) := by
  induction k with
  | zero => exact data
  | succ k ih =>
    rw [fadedVelocity_succ]
    have weaker := loss_nonneg ih.1 loss
    have above := floor_le_decayVelocity (fadedVelocity percent floor velocity k) percent floor
    exact ⟨low.1.trans above, max_le low.2 (by have := ih.2; omega)⟩

theorem floor_le_fadedVelocity (percent : Int) (above : floor ≤ velocity) (k : Nat) :
    floor ≤ fadedVelocity percent floor velocity k := by
  cases k with
  | zero => exact above
  | succ k =>
    rw [fadedVelocity_succ]
    exact floor_le_decayVelocity ..

theorem fadedVelocity_le (loss : 0 ≤ percent) (low : 0 ≤ floor) (above : floor ≤ velocity) {k later : Nat}
    (before : k ≤ later) :
    fadedVelocity percent floor velocity later ≤ fadedVelocity percent floor velocity k := by
  induction before with
  | refl => exact Int.le_refl _
  | @step last _ ih =>
    have stays := floor_le_fadedVelocity percent above last
    rw [fadedVelocity_succ]
    exact (decayVelocity_le (low.trans stays) loss stays).trans ih

theorem fadedVelocity_of_lt (loss : 0 ≤ percent) (data : 0 ≤ velocity) (below : velocity < floor) (k : Nat) :
    fadedVelocity percent floor velocity (k + 1) = floor := by
  induction k with
  | zero => exact decayVelocity_of_le data loss below.le
  | succ k ih =>
    rw [fadedVelocity_succ, ih]
    exact decayVelocity_of_le (data.trans below.le) loss le_rfl

/-- The velocities of notes that follow each other, none louder than the one before; but notes after a first
one below the floor are as loud as the floor. -/
structure Decays (start floor : Int) (velocities : List Int) : Prop where
  head : ∀ velocity ∈ velocities.head?, velocity = start
  data : ∀ velocity ∈ velocities, IsData velocity
  quieter : floor ≤ start → velocities.Pairwise fun velocity next => next ≤ velocity
  lifted : start < floor → ∀ velocity ∈ velocities.tail, velocity = floor

theorem decays_fadedVelocity (loss : 0 ≤ percent) (data : IsData velocity) (low : IsData floor) (count : Nat) :
    Decays velocity floor ((List.range count).map (fadedVelocity percent floor velocity)) where
  head := by
    cases count with
    | zero => simp
    | succ count => simp [List.range_succ_eq_map, fadedVelocity]
  data := List.forall_mem_map.2 fun k _ => isData_fadedVelocity loss data low k
  quieter above :=
    List.pairwise_map.2 (List.pairwise_lt_range.imp fun before => fadedVelocity_le loss low.1 above before.le)
  lifted below := by
    cases count with
    | zero => simp
    | succ count =>
      simp only [List.range_succ_eq_map, List.map_cons, List.tail_cons, List.map_map, List.forall_mem_map]
      exact fun k _ => fadedVelocity_of_lt loss data.1 below k

end Velocities

def noteOns (placed : List Placed) : List Placed := placed.filter fun p => p.events.any Event.isNoteOn

theorem noteOns_append (first second : List Placed) :
    noteOns (first ++ second) = noteOns first ++ noteOns second :=
  List.filter_append ..

theorem noteOns_eq_nil {placed : List Placed}
    (silent : ∀ p ∈ placed, ∀ e ∈ p.events, e.isNoteOn = false) : noteOns placed = [] := by
  refine List.filter_eq_nil_iff.2 fun p member => ?_
  simpa using silent p member

variable {samples : Table Sample} {floor channel slot : Int} {step : Step} {order : List Int}
  {delay percent : Int}

theorem noteOns_stepFigures (following : List Step) (shape : step.ornament = some (.strum order delay percent))
    (clean : step.isError = false) (begins : step.tiesBackward = false) :
    noteOns ((stepFigures samples floor channel slot step following).flatMap Figure.placed) =
      step.playingOrder.mapIdx fun k note =>
        .one slot (Voice.strummed ⟨channel, clampData step.velocity⟩ delay percent floor k note) := by
  have messages : noteOns (step.messages.map fun message => .one slot (message.event channel)) = [] := by
    refine noteOns_eq_nil (List.forall_mem_map.2 fun message _ => List.forall_mem_singleton.2 ?_)
    cases message <;> rfl
  have sampled (v : Voice) : noteOns (step.samples.filterMap fun name =>
      (samples.find? name).map fun sample => .one slot (sampleEvent v name sample)) = [] := by
    refine noteOns_eq_nil fun p member => ?_
    obtain ⟨name, sample, rfl⟩ := mem_samplePlaced member
    exact List.forall_mem_singleton.2 rfl
  have ended (v : Voice) : noteOns (ends v slot step) = [] := by
    refine noteOns_eq_nil fun p member => ?_
    unfold ends at member
    split at member
    · obtain ⟨note, -, rfl⟩ := List.mem_map.1 member
      exact List.forall_mem_singleton.2 rfl
    · cases member
  have started (v : Voice) : noteOns (strum v step.playingOrder delay percent floor slot) =
      step.playingOrder.mapIdx fun k note => .one slot (v.strummed delay percent floor k note) := by
    rw [strum_eq_mapIdx]
    refine List.filter_eq_self.2 fun p member => ?_
    obtain ⟨k, -, rfl⟩ := List.mem_mapIdx.1 member
    rfl
  have placed : (stepFigures samples floor channel slot step following).flatMap Figure.placed =
      (step.messages.map fun message => .one slot (message.event channel)) ++
        (strum ⟨channel, clampData step.velocity⟩ step.playingOrder delay percent floor slot ++
          step.samples.filterMap fun name => (samples.find? name).map fun sample =>
            .one slot (sampleEvent ⟨channel, clampData step.velocity⟩ name sample)) ++
        (if step.tiesForward then [] else ends ⟨channel, clampData step.velocity⟩ slot step) := by
    simp [stepFigures, starts, shape, clean, begins, Figure.placed]
  rw [placed, noteOns_append, noteOns_append, noteOns_append, messages, started, sampled]
  split
  · simp [noteOns]
  · rw [ended, List.nil_append, List.append_nil, List.append_nil]

theorem foldlM_strum_failsJust (slots : Slots) (nonneg : 0 ≤ slot) (v : Voice) (notes : List Int) :
    FailsJust ((strum v notes delay percent floor slot).foldlM perform slots) .numberTooLarge
      (∃ k < notes.length, (Binary64.ofInt (k * delay)).isInfinite = true) := by
  rw [← exists_isEndless_strum]
  refine FailsJust.foldlM (fun _ => True) (fun _ _ => trivial) (fun now _ p member => ?_) trivial
  exact perform_failsJust now (by rw [slot_strum p member]; exact nonneg)

theorem strum_decays {floor : Int} {step : Step} {order : List Int} {delay percent : Int}
    (shape : step.ornament = some (.strum order delay percent)) (loss : 0 ≤ percent) (low : IsData floor)
    (clean : step.isError = false) (begins : step.tiesBackward = false) (samples : Table Sample)
    (channel slot : Int) (following : List Step) :
    ∃ notes : List Event,
      noteOns ((stepFigures samples floor channel slot step following).flatMap Figure.placed) =
        notes.map (.one slot ·) ∧
      notes.map (·.note) = step.playingOrder ∧
      notes.map (·.delay) = (List.range step.playingOrder.length).map (fun k => .ofInt (k * delay)) ∧
      Decays (clampData step.velocity) floor (notes.map (·.velocity)) ∧
      (0 ≤ slot → ∀ slots, FailsJust ((notes.map (.one slot ·)).foldlM perform slots) .numberTooLarge
        (∃ k < notes.length, (Binary64.ofInt (k * delay)).isInfinite = true)) := by
  let v : Voice := ⟨channel, clampData step.velocity⟩
  let notes := step.playingOrder.mapIdx (v.strummed delay percent floor)
  have each {α : Type} (view : Event → α) (value : Nat → α)
      (same : ∀ k note, view (v.strummed delay percent floor k note) = value k) :
      notes.map view = (List.range step.playingOrder.length).map value :=
    List.ext_getElem (by simp [notes]) (by simp [notes, same])
  have placed : notes.map (.one slot ·) = strum v step.playingOrder delay percent floor slot := by
    rw [strum_eq_mapIdx]
    exact List.ext_getElem (by simp [notes]) (by simp [notes])
  have inOrder : notes.map (·.note) = step.playingOrder :=
    List.ext_getElem (by simp [notes]) (by simp [notes, Voice.strummed, Voice.noteOn])
  refine ⟨notes, ?_, inOrder, each (·.delay) _ fun _ _ => rfl, ?_, fun nonneg slots => ?_⟩
  · rw [placed, strum_eq_mapIdx]
    exact noteOns_stepFigures following shape clean begins
  · rw [each (·.velocity) (fadedVelocity percent floor (clampData step.velocity)) fun _ _ => rfl]
    exact decays_fadedVelocity loss ⟨clampData_nonneg _, clampData_le _⟩ low _
  · rw [placed, List.length_mapIdx]
    exact foldlM_strum_failsJust slots nonneg v step.playingOrder

def downStroke : Step :=
  { kind := .synth, pitches := [60, 64, 67], velocity := 100, length := 12,
    ornament := some (.strum [3, 2, 1] 10 10) }

theorem strum_decays_of_downStroke :
    ∃ notes : List Event,
      noteOns ((stepFigures [] 20 0 0 downStroke []).flatMap Figure.placed) = notes.map (.one 0 ·) ∧
      notes.map (·.note) = [67, 64, 60] ∧ Decays 100 20 (notes.map (·.velocity)) := by
  have shape : downStroke.ornament = some (.strum [3, 2, 1] 10 10) := rfl
  have low : IsData 20 := ⟨by decide, by decide⟩
  obtain ⟨notes, placed, inOrder, -, decays, -⟩ := strum_decays shape (by decide) low rfl rfl [] 0 0 []
  exact ⟨notes, placed, inOrder, decays⟩

def faintStroke : Step :=
  { kind := .synth, pitches := [60, 64, 67], velocity := 10, length := 48,
    ornament := some (.strum [1, 2, 3] 10 3) }

theorem faintStroke_grows_louder : ¬∀ (step : Step) (order : List Int) (delay percent floor : Int),
    step.ornament = some (.strum order delay percent) → 0 ≤ percent → percent ≤ 10 → IsData floor →
    step.isError = false → step.tiesBackward = false →
    (((noteOns ((stepFigures [] floor 0 0 step []).flatMap Figure.placed)).flatMap Placed.events).map
      (·.velocity)).Pairwise fun velocity next => next ≤ velocity := by
  intro always
  have low : IsData 20 := ⟨by decide, by decide⟩
  have fades := always faintStroke [1, 2, 3] 10 3 20 rfl (by decide) (by decide) low rfl rfl
  revert fades
  decide +kernel

end ScoreScript.Performance
