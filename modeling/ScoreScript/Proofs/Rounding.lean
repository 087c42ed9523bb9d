import Mathlib.Algebra.Order.Field.Power
import Mathlib.Tactic.Positivity
import Mathlib.Tactic.Ring
import ScoreScript.Proofs.Finite

set_option autoImplicit false

namespace ScoreScript

theorem abs_roundHalfEven_sub_le (q : Rat) : |(roundHalfEven q : Rat) - q| ≤ 1 / 2 := by
  have below : (q.floor : Rat) ≤ q := Rat.floor_le q
  have above : q < ((q.floor + 1 : Int) : Rat) := Rat.lt_floor_add_one q
  push_cast at above
  unfold roundHalfEven
  dsimp only
  rw [abs_le]
  split_ifs <;> constructor <;> push_cast <;> linarith

theorem roundHalfEven_intCast (n : Int) : roundHalfEven n = n := by
  have floor : (n : Rat).floor = n := Rat.floor_intCast n
  simp [roundHalfEven, floor]

theorem roundHalfEven_lt_iff {q : Rat} {n : Int} (apart : q ≠ n - 1 / 2) :
    roundHalfEven q < n ↔ q < n - 1 / 2 := by
  obtain ⟨low, high⟩ := abs_le.1 (abs_roundHalfEven_sub_le q)
  constructor
  · intro before
    have before : (roundHalfEven q : Rat) ≤ n - 1 := by exact_mod_cast Int.le_sub_one_of_lt before
    exact lt_of_le_of_ne (by linarith) apart
  · intro before
    have before : (roundHalfEven q : Rat) < n := by linarith
    exact_mod_cast before

theorem log2_bounds {n : Nat} (present : n ≠ 0) :
    (2 : Rat) ^ (Nat.log2 n : Int) ≤ n ∧ (n : Rat) < 2 ^ (Nat.log2 n + 1 : Int) := by
  have low := Nat.log2_self_le present
  have high := @Nat.lt_log2_self n
  constructor
  · rw [zpow_natCast]
    exact_mod_cast low
  · rw [← Nat.cast_succ, zpow_natCast]
    exact_mod_cast high

theorem floorLog2_spec {q : Rat} (positive : 0 < q) :
    (2 : Rat) ^ floorLog2 q ≤ q ∧ q < (2 : Rat) ^ (floorLog2 q + 1) := by
  have top : 0 < q.num := Rat.num_pos.2 positive
  have size : (q.num.natAbs : Rat) = q * q.den := by
    calc (q.num.natAbs : Rat)
        = ((q.num.natAbs : Int) : Rat) := (Int.cast_natCast _).symm
      _ = q.num := by rw [Int.natAbs_of_nonneg top.le]
      _ = q * q.den := (Rat.mul_den_eq_num q).symm
  obtain ⟨numLow, numHigh⟩ := log2_bounds (Int.natAbs_ne_zero.2 top.ne')
  obtain ⟨denLow, denHigh⟩ := log2_bounds q.den_ne_zero
  have den : (0 : Rat) < q.den := by exact_mod_cast q.den_pos
  rw [size] at numLow numHigh
  unfold floorLog2
  dsimp only
  rw [twoPow_eq_zpow]
  generalize (Nat.log2 q.num.natAbs : Int) = num at *
  generalize (Nat.log2 q.den : Int) = below at *
  -- numerator and denominator are known up to a factor of two each
  have least : (2 : Rat) ^ (num - below - 1) ≤ q := by
    apply le_of_mul_le_mul_right _ den
    calc (2 : Rat) ^ (num - below - 1) * q.den
        ≤ 2 ^ (num - below - 1) * 2 ^ (below + 1) :=
          mul_le_mul_of_nonneg_left denHigh.le (zpow_nonneg (by norm_num) _)
      _ = 2 ^ num := by rw [← zpow_add₀ two_ne_zero]; congr 1; omega
      _ ≤ q * q.den := numLow
  have most : q < (2 : Rat) ^ (num - below + 1) := by
    apply lt_of_mul_lt_mul_right _ den.le
    calc q * q.den
        < 2 ^ (num + 1) := numHigh
      _ = 2 ^ (num - below + 1) * 2 ^ below := by rw [← zpow_add₀ two_ne_zero]; congr 1; omega
      _ ≤ 2 ^ (num - below + 1) * q.den :=
          mul_le_mul_of_nonneg_left denLow (zpow_nonneg (by norm_num) _)
  split
  next small => exact ⟨least, by rwa [Int.sub_add_cancel]⟩
  next large => exact ⟨not_lt.1 large, most⟩

namespace Binary64

theorem lastPlace_eq {q : Rat} (normal : (2 : Rat) ^ (-1022 : Int) ≤ q) :
    lastPlace q = floorLog2 q - 52 := by
  have positive : 0 < q := lt_of_lt_of_le (zpow_pos (by norm_num) _) normal
  have above : (2 : Rat) ^ (-1022 : Int) < 2 ^ (floorLog2 q + 1) :=
    lt_of_le_of_lt normal (floorLog2_spec positive).2
  have := (zpow_lt_zpow_iff_right₀ (by norm_num : (1 : Rat) < 2)).1 above
  unfold lastPlace
  omega

section

variable {q : Rat}

theorem one_le_units (normal : (2 : Rat) ^ (-1022 : Int) ≤ q) : 1 ≤ q / 2 ^ (floorLog2 q - 52) := by
  rw [one_le_div (zpow_pos (by norm_num) _)]
  have positive : 0 < q := lt_of_lt_of_le (zpow_pos (by norm_num) _) normal
  exact le_trans (zpow_le_zpow_right₀ (by norm_num) (by omega)) (floorLog2_spec positive).1

theorem ofRat_eq (normal : (2 : Rat) ^ (-1022 : Int) ≤ q) (finite : (ofRat q).isInfinite = false) :
    ofRat q = number (roundHalfEven (q / 2 ^ (floorLog2 q - 52)) * 2 ^ (floorLog2 q - 52)) := by
  have positive : 0 < q := lt_of_lt_of_le (zpow_pos (by norm_num) _) normal
  have present : roundHalfEven (q / 2 ^ (floorLog2 q - 52)) ≠ 0 := by
    intro none
    have close := (abs_le.1 (abs_roundHalfEven_sub_le (q / 2 ^ (floorLog2 q - 52)))).1
    rw [none, Int.cast_zero] at close
    linarith [one_le_units normal]
  unfold ofRat at finite ⊢
  simp only [if_neg positive.ne', if_neg (not_lt.2 positive.le), lastPlace_eq normal, twoPow_eq_zpow,
    if_neg present] at finite ⊢
  split at finite
  next => cases finite
  next inside => rw [if_neg inside]

theorem isInfinite_ofRat (normal : (2 : Rat) ^ (-1022 : Int) ≤ q) (bounded : q < 2 ^ (1023 : Int)) :
    (ofRat q).isInfinite = false := by
  have positive : 0 < q := lt_of_lt_of_le (zpow_pos (by norm_num) _) normal
  have unit : (0 : Rat) < 2 ^ (floorLog2 q - 52) := zpow_pos (by norm_num) _
  have inside : (roundHalfEven (q / 2 ^ (floorLog2 q - 52)) : Rat) * 2 ^ (floorLog2 q - 52) <
      2 ^ (1024 : Int) := by
    calc (roundHalfEven (q / 2 ^ (floorLog2 q - 52)) : Rat) * 2 ^ (floorLog2 q - 52)
        ≤ (q / 2 ^ (floorLog2 q - 52) + 1) * 2 ^ (floorLog2 q - 52) :=
          mul_le_mul_of_nonneg_right (roundHalfEven_le _) unit.le
      _ = q + 2 ^ (floorLog2 q - 52) := by rw [add_mul, div_mul_cancel₀ _ unit.ne', one_mul]
      _ ≤ q + q := by linarith [(one_le_div unit).1 (one_le_units normal)]
      _ < 2 ^ (1024 : Int) := by
        rw [show (1024 : Int) = 1023 + 1 from rfl, zpow_add_one₀ two_ne_zero]
        linarith
  unfold ofRat
  simp only [if_neg positive.ne', if_neg (not_lt.2 positive.le), lastPlace_eq normal, twoPow_eq_zpow,
    if_neg (not_le.2 inside)]
  split <;> rfl

end

theorem ofRat_natCast {n : Nat} (bounded : n < 2 ^ 53) : ofRat n = number n := by
  rcases Nat.eq_zero_or_pos n with rfl | positive
  · rfl
  · have one : (1 : Rat) ≤ n := by exact_mod_cast positive
    have top : (n : Rat) < 2 ^ (53 : Int) := by exact_mod_cast bounded
    have normal : (2 : Rat) ^ (-1022 : Int) ≤ n :=
      le_trans (zpow_le_one_of_nonpos₀ (by norm_num) (by omega)) one
    have inside : (n : Rat) < 2 ^ (1023 : Int) :=
      lt_of_lt_of_le top (zpow_le_zpow_right₀ (by norm_num) (by omega))
    have exponent : floorLog2 n < 53 :=
      (zpow_lt_zpow_iff_right₀ (by norm_num : (1 : Rat) < 2)).1
        (lt_of_le_of_lt (floorLog2_spec (by linarith)).1 top)
    obtain ⟨room, free⟩ := Int.eq_ofNat_of_zero_le (by omega : 0 ≤ 52 - floorLog2 n)
    have unit : (2 : Rat) ^ (floorLog2 n - 52) ≠ 0 := zpow_ne_zero _ two_ne_zero
    -- all its bits fit, so it is a whole number of units
    have whole : (n : Rat) / 2 ^ (floorLog2 n - 52) = ((n * 2 ^ room : Int) : Rat) := by
      rw [div_eq_mul_inv, ← zpow_neg, Int.neg_sub, free, zpow_natCast]
      push_cast
      rfl
    rw [ofRat_eq normal (isInfinite_ofRat normal inside), whole, roundHalfEven_intCast, ← whole,
      div_mul_cancel₀ _ unit]

theorem ofInt_natCast {n : Nat} (bounded : n < 2 ^ 53) : ofInt n = number n := by
  rw [ofInt, Int.cast_natCast, ofRat_natCast bounded]

/-- Whether a number comes from another one by so many roundings. -/
def Near (roundings : Nat) (q r : Rat) : Prop :=
  q * (1 - 1 / 2 ^ 53) ^ roundings ≤ r ∧ r ≤ q * (1 + 1 / 2 ^ 53) ^ roundings

def IsModerate (q : Rat) : Prop := (2 : Rat) ^ (-1000 : Int) ≤ q ∧ q ≤ 2 ^ (1000 : Int)

theorem IsModerate.pos {q : Rat} (moderate : IsModerate q) : 0 < q :=
  lt_of_lt_of_le (zpow_pos (by norm_num) _) moderate.1

theorem isModerate_of_le {q : Rat} (low : 1 / 2 ^ 20 ≤ q) (high : q ≤ 2 ^ 240) : IsModerate q := by
  constructor
  · have tiny : (2 : Rat) ^ (-1000 : Int) ≤ 2 ^ (-20 : Int) :=
      zpow_le_zpow_right₀ (by norm_num) (by omega)
    exact le_trans tiny (le_trans (by norm_num) low)
  · have huge : (2 : Rat) ^ (240 : Int) ≤ 2 ^ (1000 : Int) := zpow_le_zpow_right₀ (by norm_num) (by omega)
    exact le_trans high (le_trans (by norm_num) huge)

theorem Near.refl (q : Rat) : Near 0 q q := by
  constructor <;> simp

theorem near_ofRat {q : Rat} (normal : (2 : Rat) ^ (-1022 : Int) ≤ q)
    (finite : (ofRat q).isInfinite = false) :
    ∃ r, ofRat q = number r ∧ Near 1 q r := by
  have positive : 0 < q := lt_of_lt_of_le (zpow_pos (by norm_num) _) normal
  have unit : (0 : Rat) < 2 ^ (floorLog2 q - 52) := zpow_pos (by norm_num) _
  obtain ⟨low, high⟩ := abs_le.1 (abs_roundHalfEven_sub_le (q / 2 ^ (floorLog2 q - 52)))
  have small : (2 : Rat) ^ (floorLog2 q - 52) ≤ q * (1 / 2 ^ 52) := by
    rw [zpow_sub₀ two_ne_zero, div_eq_mul_one_div]
    exact mul_le_mul_of_nonneg_right (floorLog2_spec positive).1 (by positivity)
  have back : q / 2 ^ (floorLog2 q - 52) * 2 ^ (floorLog2 q - 52) = q := div_mul_cancel₀ _ unit.ne'
  refine ⟨_, ofRat_eq normal finite, ?_, ?_⟩ <;> rw [pow_one]
  · have := mul_le_mul_of_nonneg_right low unit.le
    rw [sub_mul, back] at this
    linarith
  · have := mul_le_mul_of_nonneg_right high unit.le
    rw [sub_mul, back] at this
    linarith

theorem Near.ofRat {q r : Rat} {roundings : Nat} (near : Near roundings q r) (few : roundings ≤ 20)
    (moderate : IsModerate q) : ∃ s, ofRat r = number s ∧ Near (roundings + 1) q s := by
  obtain ⟨low, high⟩ := near
  have positive := moderate.pos
  have least : (1 / 2 : Rat) ≤ (1 - 1 / 2 ^ 53) ^ roundings :=
    le_trans (by norm_num) (pow_le_pow_of_le_one (by norm_num) (by norm_num) few)
  have most : (1 + 1 / 2 ^ 53 : Rat) ^ roundings ≤ 2 :=
    le_trans (pow_le_pow_right₀ (by norm_num) few) (by norm_num)
  have normal : (2 : Rat) ^ (-1022 : Int) ≤ r := by
    calc (2 : Rat) ^ (-1022 : Int)
        ≤ 2 ^ (-1000 - 1 : Int) := zpow_le_zpow_right₀ (by norm_num) (by omega)
      _ = 2 ^ (-1000 : Int) * (1 / 2) := by rw [zpow_sub_one₀ two_ne_zero, one_div]
      _ ≤ q * (1 - 1 / 2 ^ 53) ^ roundings :=
        mul_le_mul moderate.1 least (by norm_num) positive.le
      _ ≤ r := low
  have bounded : r < (2 : Rat) ^ (1023 : Int) := by
    calc r ≤ q * (1 + 1 / 2 ^ 53) ^ roundings := high
      _ ≤ 2 ^ (1000 : Int) * 2 := mul_le_mul moderate.2 most (by positivity) (by positivity)
      _ = 2 ^ (1000 + 1 : Int) := (zpow_add_one₀ two_ne_zero _).symm
      _ < 2 ^ (1023 : Int) := zpow_lt_zpow_right₀ (by norm_num) (by omega)
  obtain ⟨s, same, after, before⟩ := near_ofRat normal (isInfinite_ofRat normal bounded)
  rw [pow_one] at after before
  refine ⟨s, same, ?_, ?_⟩
  · calc q * (1 - 1 / 2 ^ 53) ^ (roundings + 1)
        = q * (1 - 1 / 2 ^ 53) ^ roundings * (1 - 1 / 2 ^ 53) := by ring
      _ ≤ r * (1 - 1 / 2 ^ 53) := mul_le_mul_of_nonneg_right low (by norm_num)
      _ ≤ s := after
  · calc s ≤ r * (1 + 1 / 2 ^ 53) := before
      _ ≤ q * (1 + 1 / 2 ^ 53) ^ roundings * (1 + 1 / 2 ^ 53) :=
          mul_le_mul_of_nonneg_right high (by norm_num)
      _ = q * (1 + 1 / 2 ^ 53) ^ (roundings + 1) := by ring

theorem Near.pos {q r : Rat} {roundings : Nat} (near : Near roundings q r) (positive : 0 < q) : 0 < r :=
  lt_of_lt_of_le (mul_pos positive (pow_pos (by norm_num) _)) near.1

theorem Near.scale {q r m : Rat} {roundings : Nat} (near : Near roundings q r) (forward : 0 ≤ m) :
    Near roundings (q * m) (r * m) := by
  obtain ⟨low, high⟩ := near
  constructor
  · rw [mul_right_comm]
    exact mul_le_mul_of_nonneg_right low forward
  · rw [mul_right_comm]
    exact mul_le_mul_of_nonneg_right high forward

theorem number_mul {p q : Rat} (present : p * q ≠ 0) : number p * number q = Binary64.ofRat (p * q) := by
  change rounded ((p < 0) != (q < 0)) (p * q) = _
  rw [rounded, if_neg present]

theorem number_div {p q : Rat} (present : p ≠ 0) (divisor : q ≠ 0) :
    number p / number q = Binary64.ofRat (p / q) := by
  change (if (number q).isZero then _ else rounded ((p < 0) != (q < 0)) (p / q)) = _
  rw [if_neg (by simp [isZero, toRat?, divisor]), rounded, if_neg (div_ne_zero present divisor)]

section

variable {q r m : Rat} {roundings : Nat}

theorem Near.mul (near : Near roundings q r) (few : roundings ≤ 20) (positive : 0 < m)
    (moderate : IsModerate (q * m)) :
    ∃ s, number r * number m = number s ∧ Near (roundings + 1) (q * m) s := by
  have scaled := near.scale positive.le
  rw [number_mul (scaled.pos moderate.pos).ne']
  exact scaled.ofRat few moderate

theorem Near.div (near : Near roundings q r) (few : roundings ≤ 20) (positive : 0 < m)
    (moderate : IsModerate (q / m)) :
    ∃ s, number r / number m = number s ∧ Near (roundings + 1) (q / m) s := by
  have scaled := near.scale (inv_pos.2 positive).le
  rw [← div_eq_mul_inv, ← div_eq_mul_inv] at scaled
  have present : r ≠ 0 := (div_pos_iff_of_pos_right positive).1 (scaled.pos moderate.pos) |>.ne'
  rw [number_div present positive.ne']
  exact scaled.ofRat few moderate

end

end Binary64

end ScoreScript
