import ScoreScript.Proofs.Layout

set_option autoImplicit false

namespace ScoreScript

theorem Measure.duration_nonneg {measure : Measure} (long : ∀ step ∈ measure, 0 ≤ step.length) :
    0 ≤ Measure.duration measure := by
  induction measure with
  | nil => simp
  | cons step rest ih =>
    have here := long step (by simp)
    have := ih fun s member => long s (by simp [member])
    simp only [Measure.duration_cons]
    omega

theorem MusicalSection.length_measuresOf_le (s : MusicalSection) (instrument : Text) :
    (s.measuresOf instrument).length ≤ s.length := by
  unfold measuresOf length
  induction s.measures with
  | nil => simp
  | cons entry rest ih =>
    obtain ⟨key, measures⟩ := entry
    rw [Table.find?_cons]
    simp only [List.map_cons, List.foldr_cons]
    split
    · exact Nat.le_max_left ..
    · omega

namespace Performance

theorem measureOnsets_apart {slot : Int} {measure : Measure}
    (long : ∀ step ∈ measure, 0 ≤ step.length) :
    (measureOnsets slot measure).Pairwise (fun o next => o.finish ≤ next.slot) ∧
      ∀ o ∈ measureOnsets slot measure, o.finish ≤ slot + measure.duration := by
  induction measure generalizing slot with
  | nil => simp [measureOnsets]
  | cons step rest ih =>
    have longRest : ∀ s ∈ rest, 0 ≤ s.length := fun s member => long s (by simp [member])
    obtain ⟨apart, bounded⟩ := @ih (slot + step.length) longRest
    have total := Measure.duration_nonneg longRest
    simp only [measureOnsets, List.pairwise_cons, List.forall_mem_cons, Measure.duration_cons]
    refine ⟨⟨fun o member => slot_measureOnsets longRest member, apart⟩, ?_, fun o member => ?_⟩
    · simp only [Onset.finish]
      omega
    · have := bounded o member
      omega

theorem onsets_apart {stepsPerMeasure slot : Int} {measures : List Measure}
    (forward : 0 ≤ stepsPerMeasure) (long : ∀ measure ∈ measures, ∀ step ∈ measure, 0 ≤ step.length)
    (filled : ∀ measure ∈ measures, Measure.duration measure ≤ stepsPerMeasure) :
    (onsets stepsPerMeasure slot measures).Pairwise (fun o next => o.finish ≤ next.slot) ∧
      ∀ o ∈ onsets stepsPerMeasure slot measures,
        o.finish ≤ slot + measures.length * stepsPerMeasure := by
  induction measures generalizing slot with
  | nil => simp [onsets]
  | cons measure rest ih =>
    have longRest : ∀ m ∈ rest, ∀ step ∈ m, 0 ≤ step.length := fun m member => long m (by simp [member])
    obtain ⟨apart, bounded⟩ := @ih (slot + stepsPerMeasure) longRest fun m member =>
      filled m (by simp [member])
    obtain ⟨inner, ends⟩ := @measureOnsets_apart slot measure (long measure (by simp))
    have here := filled measure (by simp)
    have room : slot + ((measure :: rest).length : Int) * stepsPerMeasure =
        slot + stepsPerMeasure + (rest.length : Int) * stepsPerMeasure := by
      rw [List.length_cons, Int.natCast_add_one, Int.add_mul, Int.one_mul]
      omega
    have later := Int.mul_nonneg (Int.natCast_nonneg rest.length) forward
    simp only [onsets, List.pairwise_append, List.forall_mem_append, room]
    refine ⟨⟨inner, apart, fun o member next inRest => ?_⟩, fun o member => ?_, bounded⟩
    · have := ends o member
      have := slot_onsets forward longRest inRest
      omega
    · have := ends o member
      omega

def IsFilled (c : Score) (s : MusicalSection) (i : Instrument) : Prop :=
  ∀ measure ∈ s.measuresOf i.name, Measure.duration measure ≤ c.grid.stepsPerMeasure

instance (c : Score) (s : MusicalSection) (i : Instrument) : Decidable (IsFilled c s i) :=
  inferInstanceAs <| Decidable <|
    ∀ measure ∈ s.measuresOf i.name, Measure.duration measure ≤ c.grid.stepsPerMeasure

theorem instrumentOnsets_apart {c : Score} {s : MusicalSection} {i : Instrument}
    (forward : 0 ≤ c.grid.stepsPerMeasure) (lasting : Measure.AllLasting (s.measuresOf i.name))
    (filled : IsFilled c s i) :
    (instrumentOnsets c s i).Pairwise (fun o next => o.finish ≤ next.slot) ∧
      ∀ o ∈ instrumentOnsets c s i, o.finish ≤ nominalLength c s := by
  have long : ∀ measure ∈ s.measuresOf i.name, ∀ step ∈ measure, 0 ≤ step.length := by
    intro measure member step inMeasure
    have := (lasting measure member step inMeasure).length
    omega
  obtain ⟨apart, bounded⟩ := @onsets_apart c.grid.stepsPerMeasure 0 _ forward long filled
  refine ⟨apart, fun o member => ?_⟩
  have here := bounded o member
  have most : ((s.measuresOf i.name).length : Int) ≤ s.length := by
    exact_mod_cast s.length_measuresOf_le i.name
  have := Int.mul_le_mul_of_nonneg_right most forward
  rw [nominalLength]
  omega

variable {first : Onset} {rest : List Onset}

theorem chainLength_le (apart : (first :: rest).Pairwise fun o next => o.finish ≤ next.slot) :
    first.slot + chainLength (first :: rest) ≤ (rest.getLastD first).finish := by
  induction rest generalizing first with
  | nil => simp [chainLength, Onset.finish]
  | cons next later ih =>
    obtain ⟨before, apartRest⟩ := List.pairwise_cons.1 apart
    have here := before next (by simp)
    have tail := ih apartRest
    simp only [Onset.finish, chainLength, List.map_cons, Measure.duration_cons, List.getLastD_cons]
      at here tail ⊢
    omega

theorem one_le_chainLength (lasting : ∀ o ∈ first :: rest, o.step.IsLasting) :
    1 ≤ chainLength (first :: rest) := by
  have here := (lasting first (by simp)).length
  have later : 0 ≤ Measure.duration (rest.map Onset.step) := by
    refine Measure.duration_nonneg fun step member => ?_
    obtain ⟨o, inRest, rfl⟩ := List.mem_map.1 member
    have := (lasting o (by simp [inRest])).length
    omega
  simp only [chainLength, List.map_cons, Measure.duration_cons]
  omega

theorem chains_apart {row : List Onset} (apart : row.Pairwise fun o next => o.finish ≤ next.slot) :
    (∀ chain ∈ chains row, chain.Pairwise fun o next => o.finish ≤ next.slot) ∧
      (chains row).Pairwise fun chain next => ∀ o ∈ chain, ∀ after ∈ next, o.finish ≤ after.slot := by
  rw [← List.flatten_splitBy Onset.joins row] at apart
  exact List.pairwise_flatten.1 apart

theorem schedule_apart {c : Score} (forward : 0 ≤ c.grid.stepsPerMeasure) (offset : Int)
    (sections : List MusicalSection) :
    (schedule c offset sections).Pairwise fun entry next =>
      entry.1 + nominalLength c entry.2 ≤ next.1 := by
  induction sections generalizing offset with
  | nil => exact .nil
  | cons s rest ih => exact List.pairwise_cons.2 ⟨fun next later => le_start forward later, ih _⟩

end Performance

end ScoreScript
