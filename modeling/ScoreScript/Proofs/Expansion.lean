import ScoreScript.Proofs.Joined

set_option autoImplicit false

namespace ScoreScript.Phrase

variable {sequences : Table Text} {phrases : List Text}

def pass (sequences : Table Text) (phrases : List Text) : List Text := phrases.flatMap (expand sequences)

def HasCalls (sequences : Table Text) (phrases : List Text) : Prop :=
  ∃ phrase ∈ phrases, isCall sequences phrase = true

instance (sequences : Table Text) (phrases : List Text) : Decidable (HasCalls sequences phrases) :=
  inferInstanceAs (Decidable (∃ phrase ∈ phrases, _))

theorem plain_of_not_hasCalls (idle : ¬HasCalls sequences phrases) :
    ∀ phrase ∈ phrases, isCall sequences phrase = false := by
  simpa [HasCalls] using idle

theorem pass_of_not_hasCalls (idle : ¬HasCalls sequences phrases) : pass sequences phrases = phrases :=
  flatMap_expand_of_plain (plain_of_not_hasCalls idle)

theorem expandPasses_eq_iterate (depth : Nat) (phrases : List Text) :
    expandPasses sequences depth phrases = (pass sequences)^[depth] phrases := by
  induction depth generalizing phrases with
  | zero => rfl
  | succ depth ih => rw [expandPasses_succ, ih, Function.iterate_succ_apply, pass]

theorem iterate_pass_of_le {depth larger : Nat} (idle : ¬HasCalls sequences ((pass sequences)^[depth] phrases))
    (more : depth ≤ larger) : (pass sequences)^[larger] phrases = (pass sequences)^[depth] phrases := by
  obtain ⟨further, rfl⟩ := Nat.exists_eq_add_of_le' more
  rw [Function.iterate_add_apply, Function.iterate_fixed (pass_of_not_hasCalls idle)]

theorem expandSequences_of_not_hasCalls {depth : Nat} (line : Int)
    (idle : ¬HasCalls sequences ((pass sequences)^[depth] phrases)) :
    expandSequences sequences depth line phrases = ((pass sequences)^[depth] phrases, []) := by
  have none : ((pass sequences)^[depth] phrases).find? (isCall sequences) = none := by
    simpa using plain_of_not_hasCalls idle
  rw [expandSequences, expandPasses_eq_iterate, none]

theorem expandSequences_of_hasCalls {depth : Nat} (line : Int)
    (left : HasCalls sequences ((pass sequences)^[depth] phrases)) :
    ∃ call, ((pass sequences)^[depth] phrases).find? (isCall sequences) = some call ∧
      expandSequences sequences depth line phrases =
        (((pass sequences)^[depth] phrases).map (silenced sequences),
          [⟨.syntaxError, name call, line⟩]) := by
  obtain ⟨call, found⟩ := Option.isSome_iff_exists.1 (List.find?_isSome.2 left)
  refine ⟨call, found, ?_⟩
  rw [expandSequences, expandPasses_eq_iterate, found]
  rfl

theorem isCall_silenced (unnamed : sequences.contains silence = false) (phrase : Text) :
    isCall sequences (silenced sequences phrase) = false := by
  have called : name silence = silence := by decide
  unfold silenced
  split
  next => rwa [isCall, called]
  next plain => simpa using plain

theorem expandSequences_eq_flatMap (depth : Nat) (line : Int) (phrases : List Text) :
    (expandSequences sequences depth line phrases).1 =
      phrases.flatMap fun phrase => (expandSequences sequences depth line [phrase]).1 := by
  induction phrases with
  | nil => exact expandSequences_of_plain depth line (by simp)
  | cons phrase rest ih =>
    rw [List.flatMap_cons, ← ih, ← expandSequences_append, List.singleton_append]

/-- No call is left of a line. If some are left after the passes that may be taken, exactly those become
silence, and the first of them is reported; otherwise nothing is reported, and further passes or a greater
depth change nothing. What is no call stays, between what its neighbours stand for. -/
theorem sequences_put_out (unnamed : sequences.contains silence = false) (depth : Nat) (line : Int)
    (phrases : List Text) :
    ¬HasCalls sequences (expandSequences sequences depth line phrases).1 ∧
      (HasCalls sequences ((pass sequences)^[depth] phrases) → ∃ call,
        ((pass sequences)^[depth] phrases).find? (isCall sequences) = some call ∧
        expandSequences sequences depth line phrases =
          (((pass sequences)^[depth] phrases).map fun phrase =>
            if isCall sequences phrase then silence else phrase, [⟨.syntaxError, name call, line⟩])) ∧
      (¬HasCalls sequences ((pass sequences)^[depth] phrases) →
        expandSequences sequences depth line phrases = ((pass sequences)^[depth] phrases, []) ∧
        pass sequences (expandSequences sequences depth line phrases).1 =
          (expandSequences sequences depth line phrases).1 ∧
        ∀ larger, depth ≤ larger → expandSequences sequences larger line phrases =
          expandSequences sequences depth line phrases) ∧
      (expandSequences sequences depth line phrases).1 =
        (phrases.flatMap fun phrase =>
          if isCall sequences phrase then (expandSequences sequences depth line [phrase]).1
          else [phrase]) := by
  refine ⟨?_, expandSequences_of_hasCalls line, fun idle => ?_, ?_⟩
  · rintro ⟨phrase, member, call⟩
    rw [expandSequences_eq] at member
    obtain ⟨written, -, rfl⟩ := List.mem_map.1 member
    rw [isCall_silenced unnamed] at call
    cases call
  · rw [expandSequences_of_not_hasCalls line idle]
    refine ⟨rfl, pass_of_not_hasCalls idle, fun larger more => ?_⟩
    have same := iterate_pass_of_le idle more
    rw [← same] at idle ⊢
    exact expandSequences_of_not_hasCalls line idle
  · rw [expandSequences_eq_flatMap]
    refine List.flatMap_congr fun phrase _ => ?_
    split
    next => rfl
    next plain => exact expandSequences_of_plain depth line (by simpa using plain)

def refrains : Table Text := [("riff", "1 2 | 3"), ("twice", "args | args"), ("endless", "4 | endless")]

theorem sequences_put_out_of_refrains :
    refrains.contains silence = false ∧
      ¬HasCalls refrains ((pass refrains)^[2] ["twice(riff)", "5"]) ∧
      (expandSequences refrains 8 7 ["twice(riff)", "5"]).1 =
        (["1 2 ", " 3", "1 2 ", " 3", "5"] : List Text) ∧
      HasCalls refrains ((pass refrains)^[2] ["endless", "5"]) ∧
      (expandSequences refrains 2 7 ["endless", "5"]).1 = (["4 ", "4 ", ".", "5"] : List Text) := by
  have unnamed : refrains.contains silence = false := by decide
  have idle : ¬HasCalls refrains ((pass refrains)^[2] ["twice(riff)", "5"]) := by decide +kernel
  have left : HasCalls refrains ((pass refrains)^[2] ["endless", "5"]) := by decide +kernel
  obtain ⟨-, -, whole, -⟩ := sequences_put_out unnamed 2 7 ["twice(riff)", "5"]
  obtain ⟨-, cut, -, -⟩ := sequences_put_out unnamed 2 7 ["endless", "5"]
  obtain ⟨result, -, larger⟩ := whole idle
  obtain ⟨call, -, silenced⟩ := cut left
  refine ⟨unnamed, idle, ?_, left, ?_⟩
  · rw [larger 8 (by decide), result]
    decide +kernel
  · rw [silenced]
    dsimp only
    decide +kernel

end ScoreScript.Phrase
