import Mathlib.Tactic.IntervalCases
import ScoreScript.Proofs.PhraseWords
import ScoreScript.Text.Numeral

set_option autoImplicit false

namespace ScoreScript.Text

structure IsFigure (c : CodePoint) (value : Nat) : Prop where
  read : digitValue? c = some value
  visible : isBlank c = false
  unbracketed : isBracket c = false
  bare : c ∉ of "_+-,"

theorem isFigure_of_isDigit {d : Char} (digit : d.isDigit = true) :
    IsFigure (.char d) (d.toNat - '0'.toNat) := by
  obtain ⟨low, high⟩ := Char.isDigit_iff_toNat.1 digit
  rw [← Char.ofNat_toNat d]
  generalize d.toNat = code at low high
  have low : 48 ≤ code := low
  have high : code ≤ 57 := high
  interval_cases code <;> exact ⟨by decide, by decide, by decide, by decide⟩

theorem isFigure_of_mem_digits {n : Nat} {c : CodePoint} (member : c ∈ digits 10 n) :
    ∃ value, IsFigure c value := by
  obtain ⟨d, shown, rfl⟩ := List.mem_map.1 member
  exact ⟨_, isFigure_of_isDigit (Nat.isDigit_of_mem_toDigits (by decide) (by decide) shown)⟩

theorem notMem_digits {sign : CodePoint} (listed : sign ∈ of "_+-,") (n : Nat) : sign ∉ digits 10 n := by
  intro member
  obtain ⟨value, figure⟩ := isFigure_of_mem_digits member
  exact figure.bare listed

theorem isUncut_digits (n : Nat) : (digits 10 n).IsUncut where
  present := by simp [digits, Nat.toDigits_ne_nil]
  visible c member := by
    obtain ⟨value, figure⟩ := isFigure_of_mem_digits member
    exact figure.visible
  unbracketed c member := by
    obtain ⟨value, figure⟩ := isFigure_of_mem_digits member
    exact figure.unbracketed

theorem digitRun?_digits (n : Nat) :
    digitRun? (digits 10 n) = some ((Nat.toDigits 10 n).map fun d => d.toNat - '0'.toNat) := by
  have bare : .char '_' ∉ digits 10 n := notMem_digits (by decide) n
  have read (figures : List Char) (shown : ∀ d ∈ figures, d.isDigit = true) :
      (figures.map CodePoint.char).mapM digitValue? = some (figures.map fun d => d.toNat - '0'.toNat) := by
    induction figures with
    | nil => rfl
    | cons d rest ih =>
      obtain ⟨here, later⟩ := List.forall_mem_cons.1 shown
      rw [List.map_cons, List.mapM_cons, (isFigure_of_isDigit here).read, ih later]
      rfl
  have shown := read (Nat.toDigits 10 n) fun d => Nat.isDigit_of_mem_toDigits (by decide) (by decide)
  have present := (isUncut_digits n).present
  simp only [digitRun?, splitOn_of_notMem bare, List.mem_singleton, present.symm, if_false,
    List.flatten_singleton]
  exact shown

theorem readInt_digits {n : Nat} (short : (digits 10 n).length ≤ digitLimit) :
    readInt (digits 10 n) = .ok n := by
  obtain ⟨first, rest, begins⟩ := List.exists_cons_of_ne_nil (isUncut_digits n).present
  obtain ⟨value, figure⟩ := isFigure_of_mem_digits (n := n) (c := first) (by simp [begins])
  have started : (digits 10 n).dropWhile isNumeralBlank = digits 10 n := by
    simp [begins, isNumeralBlank, figure.visible]
  have unsigned : splitSign (digits 10 n) = (false, digits 10 n) := by
    rw [begins]
    unfold splitSign
    split
    next same => exact absurd ((List.cons.inj same).1 ▸ figure.bare) (by decide)
    next same => exact absurd ((List.cons.inj same).1 ▸ figure.bare) (by decide)
    next => rfl
  have run : (digits 10 n).takeWhile (fun c => (digitValue? c).isSome || c = '_') = digits 10 n := by
    refine List.takeWhile_eq_self_iff.2 fun c member => ?_
    obtain ⟨value, figure⟩ := isFigure_of_mem_digits member
    simp [figure.read]
  have value : ofDigits ((Nat.toDigits 10 n).map fun d => d.toNat - '0'.toNat) = n := by
    rw [ofDigits, List.foldl_map, ← Nat.ofDigitChars_eq_foldl]
    exact Nat.ofDigitChars_toDigits (by decide) (by decide)
  have counted : ¬digitLimit < ((Nat.toDigits 10 n).map fun d => d.toNat - '0'.toNat).length := by
    simpa [digits] using short
  simp only [readInt, started, unsigned, run, digitRun?_digits, counted, value]
  simp

theorem toIntOrZero_digits {n : Nat} (short : (digits 10 n).length ≤ digitLimit) :
    toIntOrZero (digits 10 n) = n := by
  simp [toIntOrZero, toInt?, (isUncut_digits n).trim_eq, readInt_digits short, Except.toOption]

end ScoreScript.Text
