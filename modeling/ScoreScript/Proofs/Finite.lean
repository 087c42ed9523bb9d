import Mathlib.Data.Nat.Log
import Mathlib.Data.Rat.Floor
import Mathlib.Tactic.Linarith
import ScoreScript.Text.Numeral

set_option autoImplicit false

namespace ScoreScript

theorem twoPow_eq_zpow (e : Int) : twoPow e = (2 : Rat) ^ e := by
  cases e with
  | ofNat n => simp [twoPow, Nat.shiftLeft_eq]
  | negSucc n => simp [twoPow, Nat.shiftLeft_eq, zpow_negSucc]

theorem roundHalfEven_le (q : Rat) : (roundHalfEven q : Rat) ≤ q + 1 := by
  have below : (q.floor : Rat) ≤ q := Rat.floor_le q
  unfold roundHalfEven
  dsimp only
  split_ifs <;> push_cast <;> linarith

theorem twoPow_lastPlace_le {n : Int} (positive : 0 < n) :
    twoPow (Binary64.lastPlace n) ≤ n := by
  obtain ⟨size, rfl⟩ := Int.eq_ofNat_of_zero_le (Int.le_of_lt positive)
  have present : size ≠ 0 := by omega
  have place : Binary64.lastPlace ((size : Int) : Rat) ≤ (Nat.log2 size : Int) := by
    have guess : floorLog2 ((size : Int) : Rat) ≤ (Nat.log2 size : Int) := by
      unfold floorLog2
      rw [Rat.num_intCast, Rat.den_intCast, Int.natAbs_natCast]
      dsimp only
      split_ifs <;> omega
    unfold Binary64.lastPlace
    omega
  calc twoPow (Binary64.lastPlace ((size : Int) : Rat))
      ≤ (2 : Rat) ^ (Nat.log2 size : Int) := by
        rw [twoPow_eq_zpow]
        exact zpow_le_zpow_right₀ (by norm_num) place
    _ ≤ ((size : Int) : Rat) := by
        rw [zpow_natCast]
        exact_mod_cast Nat.log2_self_le present

namespace Binary64

theorem isInfinite_ofInt {n : Int} (nonneg : 0 ≤ n) (bounded : n < 2 ^ 1023) :
    (ofInt n).isInfinite = false := by
  rcases Int.lt_or_eq_of_le nonneg with positive | rfl
  · have size : (0 : Rat) < n := by exact_mod_cast positive
    have unit : 0 < twoPow (lastPlace n) := by
      rw [twoPow_eq_zpow]
      exact zpow_pos (by norm_num) _
    -- rounding adds one unit at most, and so no more than the number itself
    have close : (roundHalfEven (n / twoPow (lastPlace n)) : Rat) * twoPow (lastPlace n) ≤ n + n := by
      calc (roundHalfEven (n / twoPow (lastPlace n)) : Rat) * twoPow (lastPlace n)
          ≤ (n / twoPow (lastPlace n) + 1) * twoPow (lastPlace n) :=
            mul_le_mul_of_nonneg_right (roundHalfEven_le _) unit.le
        _ = n + twoPow (lastPlace n) := by rw [add_mul, div_mul_cancel₀ _ unit.ne', one_mul]
        _ ≤ n + n := by linarith [twoPow_lastPlace_le positive]
    have within : ((n : Rat) + n) < twoPow 1024 := by
      have cast : (n : Rat) < ((2 ^ 1023 : Int) : Rat) := Int.cast_lt.2 bounded
      rw [Int.cast_pow, Int.cast_ofNat] at cast
      rw [twoPow_eq_zpow, show (1024 : Int) = (1023 + 1 : Nat) from rfl, zpow_natCast, pow_succ]
      generalize (2 : Rat) ^ 1023 = bound at cast ⊢
      linarith
    unfold ofInt ofRat
    rw [if_neg size.ne']
    simp only [not_lt.2 size.le, if_false]
    rw [if_neg (not_le.2 (lt_of_le_of_lt close within))]
    split <;> rfl
  · rfl

def IsDefined (x : Binary64) : Prop := ∀ negative, x ≠ undefined negative

theorem isDefined_ofRat (q : Rat) : (ofRat q).IsDefined := by
  intro negative
  unfold ofRat
  dsimp only
  split_ifs <;> simp

theorem isDefined_zero (negative : Bool) : (zero negative).IsDefined := by
  cases negative <;> simp [zero, IsDefined]

theorem isDefined_ofDecimal (negative : Bool) (digits : Nat) (exponent : Int) :
    (ofDecimal negative digits exponent).IsDefined := by
  unfold ofDecimal
  dsimp only
  split
  · exact isDefined_zero negative
  · split
    · simp [IsDefined]
    · split
      · exact isDefined_zero negative
      · exact isDefined_ofRat _

theorem isDefined_rounded (negative : Bool) (q : Rat) : (rounded negative q).IsDefined := by
  unfold rounded
  split
  · exact isDefined_zero _
  · exact isDefined_ofRat _

theorem isDefined_mul_number {x : Binary64} (defined : x.IsDefined) {q : Rat} (present : q ≠ 0) :
    (x * number q).IsDefined := by
  cases x with
  | number | negativeZero => exact isDefined_rounded _ _
  | infinity negative =>
    have finite : (number q).isZero = false := by simp [isZero, toRat?, present]
    intro sign
    simp [HMul.hMul, Mul.mul, mul, finite]
  | undefined negative => exact absurd rfl (defined negative)

end Binary64

end ScoreScript
