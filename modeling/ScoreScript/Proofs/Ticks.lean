import ScoreScript.Midi.File
import ScoreScript.Proofs.Rounding
import ScoreScript.Proofs.Sounding

set_option autoImplicit false

/-!
# Ticks

At the default resolution a slot is a whole number of ticks after the one before. A delay is rounded to the
nearest tick, and the roundings on the way do not reach as far as a half tick. So a delayed event stands
before a later slot in its track just if it comes at least half a tick earlier.
-/

namespace ScoreScript

namespace Binary64

theorem ofWhole_natCast {n : Nat} (bounded : n < 2 ^ 53) : ofWhole n = .ok (number n) := by
  rw [ofWhole, ofInt_natCast bounded]
  rfl

theorem ofQuotient_natCast {m n : Int} {k : Nat} (whole : m = k * n) (present : n ≠ 0)
    (bounded : k < 2 ^ 53) : ofQuotient m n = .ok (number k) := by
  have quotient : (m / n : Rat) = k := by
    rw [whole, Int.cast_mul, Int.cast_natCast, mul_div_cancel_right₀ _ (Int.cast_ne_zero.2 present)]
  rw [ofQuotient, quotient, ofRat_natCast bounded]
  rfl

theorem natCast_mul {m n : Nat} (bounded : m * n < 2 ^ 53) :
    number m * number n = number ((m * n : Nat) : Rat) := by
  by_cases none : ((m : Rat) * n) = 0
  · have empty : m * n = 0 := by exact_mod_cast none
    have nonneg (k : Nat) : ¬(k : Rat) < 0 := not_lt.2 (Nat.cast_nonneg k)
    have signs : (decide ((m : Rat) < 0) != decide ((n : Rat) < 0)) = false := by simp [nonneg]
    change rounded (decide ((m : Rat) < 0) != decide ((n : Rat) < 0)) (m * n) = _
    rw [rounded, if_pos none, signs, empty]
    simp [zero]
  · rw [number_mul none, ← Nat.cast_mul, ofRat_natCast bounded]

end Binary64

namespace Midi

open Binary64

theorem exists_ticksOfSlot {spb : Int} (grid : spb = 12 ∨ spb = 6) :
    ∃ ticks : Nat, spb = 12 ∧ ticks = 80 ∨ spb = 6 ∧ ticks = 160 := by
  rcases grid with twelve | six
  · exact ⟨80, .inl ⟨twelve, rfl⟩⟩
  · exact ⟨160, .inr ⟨six, rfl⟩⟩

section Slot

variable {spb : Int} {ticks : Nat} (known : spb = 12 ∧ ticks = 80 ∨ spb = 6 ∧ ticks = 160)
include known

theorem ofQuotient_defaultResolution : ofQuotient defaultResolution spb = .ok (number ticks) := by
  rcases known with ⟨rfl, rfl⟩ | ⟨rfl, rfl⟩ <;> exact ofQuotient_natCast rfl (by decide) (by decide)

theorem stepsToTicks_slot {slot : Nat} (bounded : slot < 2 ^ 45) :
    stepsToTicks slot spb defaultResolution = .ok (slot * ticks) := by
  have quotient := ofQuotient_defaultResolution known
  have forward : ¬spb ≤ 0 := by omega
  have inside : slot * ticks < 2 ^ 53 := by
    rcases known with ⟨-, rfl⟩ | ⟨-, rfl⟩ <;> omega
  have small : slot < 2 ^ 53 := by omega
  simp only [stepsToTicks, if_neg forward, quotient, ofWhole_natCast small, bind, Except.bind]
  rw [natCast_mul inside, nearest, toIntBy, ← Int.cast_natCast, roundHalfEven_intCast, Nat.cast_mul]

end Slot

theorem Near.lt_iff {q r bound : Rat} (near : Near 4 q r) (nonneg : 0 ≤ q) (small : q ≤ 5 * 2 ^ 40)
    (apart : 1 / 250 ≤ |q - bound|) : r ≠ bound ∧ (r < bound ↔ q < bound) := by
  have low : q - 1 / 250 < r := by
    calc q - 1 / 250 < q * (1 - 1 / 2 ^ 53) ^ 4 := by
          have : (1 - 4 / 2 ^ 53 : Rat) ≤ (1 - 1 / 2 ^ 53) ^ 4 := by norm_num
          have := mul_le_mul_of_nonneg_left this nonneg
          linarith
      _ ≤ r := near.1
  have high : r < q + 1 / 250 := by
    calc r ≤ q * (1 + 1 / 2 ^ 53) ^ 4 := near.2
      _ < q + 1 / 250 := by
          have : (1 + 1 / 2 ^ 53 : Rat) ^ 4 ≤ 1 + 5 / 2 ^ 53 := by norm_num
          have := mul_le_mul_of_nonneg_left this nonneg
          linarith
  rcases le_abs'.1 apart with below | above
  · exact ⟨by linarith, ⟨fun _ => by linarith, fun _ => by linarith⟩⟩
  · exact ⟨by linarith, ⟨fun _ => by linarith, fun _ => by linarith⟩⟩

theorem millisecondsToTicks_near {delay : Rat} {bpm : Nat} (late : 1 / 2 ≤ delay)
    (soon : delay ≤ 2 ^ 200) (positive : 0 < bpm) (bounded : bpm ≤ 255) :
    ∃ r, millisecondsToTicks (.number delay) bpm defaultResolution = .ok (roundHalfEven r) ∧
      Near 4 (delay * bpm * 2 / 125) r := by
  have pace : (1 : Rat) ≤ bpm := by exact_mod_cast positive
  have fast : (bpm : Rat) ≤ 255 := by exact_mod_cast bounded
  have low : (1 / 2 : Rat) ≤ delay * bpm := by
    calc (1 / 2 : Rat) ≤ delay := late
      _ ≤ delay * bpm := le_mul_of_one_le_right (by linarith) pace
  have high : (delay * bpm : Rat) ≤ 2 ^ 200 * 255 := mul_le_mul soon fast (by linarith) (by norm_num)
  have thousand : (1000 : Binary64) = number (1000 : Nat) := ofInt_natCast (by norm_num)
  have sixty : (60 : Binary64) = number (60 : Nat) := ofInt_natCast (by norm_num)
  -- seconds, beats a minute on, beats, ticks
  obtain ⟨a, seconds, near⟩ := (Near.refl delay).div (m := (1000 : Nat)) (by norm_num)
    (by norm_num) (isModerate_of_le (by norm_num; linarith) (by norm_num; linarith))
  obtain ⟨b, scaled, near⟩ := near.mul (m := bpm) (by norm_num) (by linarith)
    (isModerate_of_le (by norm_num; linarith) (by norm_num; linarith))
  obtain ⟨c, beats, near⟩ := near.div (m := (60 : Nat)) (by norm_num) (by norm_num)
    (isModerate_of_le (by norm_num; linarith) (by norm_num; linarith))
  obtain ⟨r, ticks, near⟩ := near.mul (m := (960 : Nat)) (by norm_num) (by norm_num)
    (isModerate_of_le (by norm_num; linarith) (by norm_num; linarith))
  refine ⟨r, ?_, ?_⟩
  · have forward : ¬(bpm : Int) ≤ 0 := by omega
    have resolution : defaultResolution = (960 : Nat) := rfl
    have small : bpm < 2 ^ 53 := by omega
    unfold millisecondsToTicks
    rw [if_neg forward, ofWhole_natCast small, resolution, ofWhole_natCast (by norm_num)]
    simp only [bind, Except.bind, thousand, sixty, seconds, scaled, beats, ticks]
    rfl
  · convert near using 1
    push_cast
    ring

theorem millisecondsToTicks_lt_iff {delay bpm : Nat} (late : 0 < delay) (soon : delay < 2 ^ 40)
    (positive : 0 < bpm) (bounded : bpm ≤ 255) :
    ∃ ticks, millisecondsToTicks (.number delay) bpm defaultResolution = .ok ticks ∧
      ∀ limit : Int, ticks < limit ↔ 4 * (delay * bpm) + 125 < 250 * limit := by
  have least : (1 : Rat) ≤ delay := by exact_mod_cast late
  have most : (delay : Rat) ≤ 2 ^ 40 := by exact_mod_cast soon.le
  obtain ⟨r, same, near⟩ := @millisecondsToTicks_near delay _ (by linarith) (by linarith) positive bounded
  refine ⟨_, same, fun limit => ?_⟩
  have nonneg : (0 : Rat) ≤ delay * bpm := by positivity
  have high : (delay * bpm : Rat) ≤ 2 ^ 40 * 255 := by exact_mod_cast Nat.mul_le_mul soon.le bounded
  -- in units of a 250th tick the distance from a half is an odd number
  have distance : (delay * bpm * 2 / 125 - (limit - 1 / 2) : Rat) =
      ((4 * (delay * bpm) + 125 - 250 * limit : Int) : Rat) / 250 := by
    push_cast
    ring
  have odd : (1 : Rat) ≤ |((4 * (delay * bpm) + 125 - 250 * limit : Int) : Rat)| := by
    have off : (1 : Int) ≤ |4 * (delay * bpm) + 125 - 250 * limit| := Int.one_le_abs (by omega)
    exact_mod_cast off
  obtain ⟨apart, before⟩ := @Near.lt_iff _ r (limit - 1 / 2) near (by linarith) (by linarith) (by
    rw [distance, abs_div, abs_of_pos (by norm_num : (0 : Rat) < 250)]
    linarith)
  rw [roundHalfEven_lt_iff apart, before, ← sub_neg, distance]
  rw [div_lt_iff₀ (by norm_num), zero_mul, Int.cast_lt_zero]
  omega

variable {t : Timeline} {e f : Event} {slot later delay : Nat}

theorem exists_tickOf {ticks : Nat}
    (known : t.stepsPerBeat = 12 ∧ ticks = 80 ∨ t.stepsPerBeat = 6 ∧ ticks = 160)
    (slow : 0 ≤ t.bpm) (fast : t.bpm ≤ 255) (bounded : slot < 2 ^ 45) (soon : delay < 2 ^ 40)
    (late : e.delay = .number delay) :
    ∃ extra, tickOf t defaultResolution slot e = .ok (slot * ticks + extra) ∧
      ∀ limit : Int, extra < limit ↔ 4 * (delay * t.bpm) + 125 < 250 * limit := by
  have start := stepsToTicks_slot known bounded
  by_cases prompt : delay = 0
  · subst prompt
    refine ⟨0, ?_, fun limit => by omega⟩
    rw [tickOf, start, late, Nat.cast_zero, Int.add_zero]
    rfl
  · have delayed : e.delay.isZero = false := by
      rw [late]
      simp [isZero, toRat?, prompt]
    obtain ⟨bpm, pace⟩ := Int.eq_ofNat_of_zero_le slow
    rw [pace] at fast ⊢
    by_cases still : bpm = 0
    · subst still
      refine ⟨0, ?_, fun limit => by omega⟩
      rw [tickOf, start, delayed, pace, Int.add_zero]
      rfl
    · obtain ⟨extra, same, before⟩ := millisecondsToTicks_lt_iff (by omega : 0 < delay) soon
        (by omega : 0 < bpm) (by omega)
      refine ⟨extra, ?_, before⟩
      rw [tickOf, start, delayed, late, pace, same]
      rfl

/-- A note that is late by some milliseconds comes before the events of a later slot just if it does so by
half a tick. -/
theorem tickOf_lt_iff (grid : t.stepsPerBeat = 12 ∨ t.stepsPerBeat = 6)
    (slow : 0 ≤ t.bpm) (fast : t.bpm ≤ 255) (after : slot < later) (bounded : later < 2 ^ 45)
    (soon : delay < 2 ^ 40) (late : e.delay = .number delay) (prompt : f.delay = .number 0) :
    ∃ a b, tickOf t defaultResolution slot e = .ok a ∧ tickOf t defaultResolution later f = .ok b ∧
      (a < b ↔ (delay * t.bpm + 32) * t.stepsPerBeat ≤ ((later : Int) - slot) * 60000) := by
  obtain ⟨ticks, known⟩ := exists_ticksOfSlot grid
  have ends : tickOf t defaultResolution later f = .ok (later * ticks) := by
    rw [tickOf, stepsToTicks_slot known bounded, prompt]
    rfl
  obtain ⟨extra, starts, before⟩ := exists_tickOf known slow fast (by omega : slot < 2 ^ 45) soon late
  refine ⟨_, _, starts, ends, ?_⟩
  have shift : slot * ticks + extra < later * ticks ↔ extra < ((later : Int) - slot) * ticks := by
    rw [Int.sub_mul]
    omega
  rw [shift, before]
  rcases known with ⟨twelve, rfl⟩ | ⟨six, rfl⟩
  · rw [twelve]
    omega
  · rw [six]
    omega

theorem sublist_or_sublist {α : Type} {a b : α} (differ : a ≠ b) {items : List α} (first : a ∈ items)
    (second : b ∈ items) : [a, b].Sublist items ∨ [b, a].Sublist items := by
  obtain ⟨front, back, rfl⟩ := List.append_of_mem first
  rcases List.mem_append.1 second with inFront | atOrAfter
  · have before : ([b] ++ [a]).Sublist (front ++ a :: back) :=
      (List.singleton_sublist.2 inFront).append (List.cons_sublist_cons.2 (List.nil_sublist back))
    exact .inr before
  · rcases List.mem_cons.1 atOrAfter with same | inBack
    · exact absurd same.symm differ
    · have after : ([] ++ [a, b]).Sublist (front ++ a :: back) :=
        (List.nil_sublist front).append (List.cons_sublist_cons.2 (List.singleton_sublist.2 inBack))
      exact .inl after

theorem sublist_sorted_iff {events : List Timed} {a b : Timed} (ends : b.event.IsEndOf a.event)
    (first : a ∈ events) (second : b ∈ events) :
    [a, b].Sublist (sorted events) ↔ a.tick < b.tick := by
  have sorts {c d : Timed} (inside : [c, d].Sublist (sorted events)) : c.notAfter d = true :=
    List.pairwise_iff_forall_sublist.1 (pairwise_sorted events) inside
  have starting : order a.event = 2 := by rw [order, ends.1]
  have ending : order b.event = 0 := by rw [order, ends.2.1]
  have differ : a ≠ b := by
    rintro rfl
    omega
  constructor
  · intro inside
    have := Timed.notAfter_iff.1 (sorts inside)
    omega
  · intro earlier
    rcases sublist_or_sublist differ (List.mem_mergeSort.2 first) (List.mem_mergeSort.2 second)
      with inside | swapped
    · exact inside
    · have := Timed.notAfter_iff.1 (sorts swapped)
      omega

theorem sublist_track_iff (grid : t.stepsPerBeat = 12 ∨ t.stepsPerBeat = 6)
    (slow : 0 ≤ t.bpm) (fast : t.bpm ≤ 255) (after : slot < later) (bounded : later < 2 ^ 45)
    (soon : delay < 2 ^ 40) (late : e.delay = .number delay) (prompt : f.delay = .number 0)
    (ends : f.IsEndOf e) :
    ∃ a b, tickOf t defaultResolution slot e = .ok a ∧ tickOf t defaultResolution later f = .ok b ∧
      ∀ events : List Timed, ⟨a, e⟩ ∈ events → ⟨b, f⟩ ∈ events →
        ([⟨a, e⟩, ⟨b, f⟩].Sublist (sorted events) ↔
          (delay * t.bpm + 32) * t.stepsPerBeat ≤ ((later : Int) - slot) * 60000) := by
  obtain ⟨a, b, starts, stops, before⟩ := tickOf_lt_iff grid slow fast after bounded soon late prompt
  refine ⟨a, b, starts, stops, fun events first second => ?_⟩
  rw [sublist_sorted_iff (a := ⟨a, e⟩) (b := ⟨b, f⟩) ends first second, before]

end Midi

end ScoreScript
