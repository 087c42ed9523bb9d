import ScoreScript.Proofs.Line
import Mathlib.Algebra.BigOperators.Ring.Finset
import Mathlib.Algebra.Order.BigOperators.Group.List
import Mathlib.Data.Rat.Floor
import Mathlib.Tactic.Linarith

set_option autoImplicit false

namespace ScoreScript.Notation

def timedFrom (unit : Rat) : List Text → List (Text × Rat)
  | [] => []
  | word :: rest =>
    match Mark.ofWord word with
    | .bracket factor => timedFrom (unit * factor) rest
    | .brace => timedFrom unit rest
    | .tie | .step => (word, unit) :: timedFrom unit rest

def weight (word : Text) : Rat := if isDotted word then 3 / 2 else 1

def shareOf (base : Int) (timed : Text × Rat) : Int :=
  dottedLength timed.1 (plainLength base timed.2)

def sharesOf (words : List Text) (budget : Int) : Int :=
  ((timedFrom 1 words).map (shareOf (unitLength words budget))).sum

def HasRoom (words : List Text) (budget : Int) : Prop :=
  ∀ timed ∈ timedFrom 1 words, 1 ≤ truncate (unitLength words budget * timed.2)

structure SharesEvenly (words : List Text) (budget : Int) : Prop where
  present : 0 < unitCount words
  unit : (budget / unitCount words).den = 1
  words : ∀ timed ∈ timedFrom 1 words, (unitLength words budget * timed.2).den = 1 ∧
    (isDotted timed.1 = true → Even (unitLength words budget * timed.2).num)

instance (words : List Text) (budget : Int) : Decidable (HasRoom words budget) :=
  inferInstanceAs (Decidable (∀ timed ∈ timedFrom 1 words, _))

instance (words : List Text) (budget : Int) : Decidable (SharesEvenly words budget) :=
  decidable_of_iff
    (0 < unitCount words ∧ (budget / unitCount words).den = 1 ∧ ∀ timed ∈ timedFrom 1 words,
      (unitLength words budget * timed.2).den = 1 ∧
        (isDotted timed.1 = true → Even (unitLength words budget * timed.2).num))
    ⟨fun ⟨present, unit, words⟩ => ⟨present, unit, words⟩,
      fun even => ⟨even.present, even.unit, even.words⟩⟩

theorem isDotted_of_tie {word : Text} (tie : Mark.ofWord word = .tie) : isDotted word = false := by
  unfold Mark.ofWord at tie
  split at tie <;> first | rfl | cases tie

theorem unitsFrom_eq (unit : Rat) (words : List Text) :
    unitsFrom unit words = ((timedFrom unit words).map fun timed => timed.2 * weight timed.1).sum := by
  induction words generalizing unit with
  | nil => rfl
  | cons word rest ih =>
    unfold unitsFrom timedFrom
    cases mark : Mark.ofWord word with
    | bracket factor => exact ih _
    | brace => exact ih _
    | tie => simp [ih, weight, isDotted_of_tie mark]
    | step =>
      by_cases dotted : isDotted word = true <;> simp [ih, weight, dotted]

namespace Bar

theorem duration_extendLast {steps : Measure} (present : steps ≠ []) (length : Int) :
    (extendLast steps length).duration = steps.duration + length := by
  rcases List.eq_nil_or_concat' steps with rfl | ⟨front, last, rfl⟩
  · exact absurd rfl present
  · simp [extendLast]
    omega

theorem durations_addTie (b : Bar) (velocity length : Int) :
    (b.addTie velocity length).earlier.map Measure.duration = b.earlier.map Measure.duration ∧
      (b.addTie velocity length).steps.duration = b.steps.duration + length := by
  unfold addTie
  dsimp only
  by_cases present : b.steps ≠ []
  · rw [if_pos present]
    exact ⟨rfl, duration_extendLast present length⟩
  · rw [if_neg present, not_not.1 present]
    split
    next steps held found =>
      -- holding a step does not change its length
      refine ⟨?_, by simp [continuation]⟩
      conv_rhs => rw [eq_concat_of_heldStep? found]
      simp
    next => exact ⟨rfl, by simp⟩

variable (ctx : Context) (chordAt : Nat → Int → Text) (line base : Int)

theorem length_stepOf (word chord : Text) {length : Int} (positive : 1 ≤ length) :
    (stepOf ctx word length chord).length = dottedLength word length := by
  rw [stepOf, Step.Draft.finish_length]
  unfold dottedLength
  split <;> omega

theorem durations_addWord (b : Bar) (word : Text) (rest : List Text) :
    (b.addWord ctx chordAt line base word).earlier.map Measure.duration =
        b.earlier.map Measure.duration ∧
      (b.addWord ctx chordAt line base word).steps.duration +
          ((timedFrom (b.addWord ctx chordAt line base word).unit rest).map (shareOf base)).sum =
        b.steps.duration + ((timedFrom b.unit (word :: rest)).map (shareOf base)).sum := by
  unfold addWord
  rw [timedFrom]
  cases mark : Mark.ofWord word with
  | bracket factor => exact ⟨rfl, rfl⟩
  | brace => exact ⟨rfl, rfl⟩
  | tie =>
    have plain : shareOf base (word, b.unit) = plainLength base b.unit := by
      simp [shareOf, dottedLength, isDotted_of_tie mark]
    obtain ⟨earlier, steps⟩ := durations_addTie b ctx.velocity (plainLength base b.unit)
    have unit : (b.addTie ctx.velocity (plainLength base b.unit)).unit = b.unit := by
      unfold addTie
      dsimp only
      split_ifs
      · rfl
      · split <;> rfl
    dsimp only
    rw [steps, unit, List.map_cons, List.sum_cons, plain, Int.add_assoc]
    exact ⟨earlier, rfl⟩
  | step =>
    refine ⟨rfl, ?_⟩
    simp only [addStep, Measure.duration_append, Measure.duration_cons, Measure.duration_nil,
      Int.add_zero, length_stepOf ctx word _ (one_le_plainLength base b.unit), List.map_cons,
      List.sum_cons, shareOf, Int.add_assoc]

theorem durations_foldl (words : List Text) (b : Bar) :
    (words.foldl (addWord ctx chordAt line base) b).measures.map Measure.duration =
      b.earlier.map Measure.duration ++
        [b.steps.duration + ((timedFrom b.unit words).map (shareOf base)).sum] := by
  induction words generalizing b with
  | nil => simp [measures, timedFrom]
  | cons word rest ih =>
    obtain ⟨earlier, steps⟩ := durations_addWord ctx chordAt line base b word rest
    rw [List.foldl_cons, ih, earlier, steps]

end Bar

variable (ctx : Context) (chordAt : Nat → Int → Text) (line : Int)

theorem durations_barOf (earlier : List Measure) (words : List Text) :
    (barOf ctx chordAt line earlier words).measures.map Measure.duration =
      earlier.map Measure.duration ++ [sharesOf words ctx.budget] := by
  rw [barOf, Bar.durations_foldl]
  simp [sharesOf]

def wordRows (phrases : List Text) : List (List Text) :=
  (phrases.map Text.words).filter (· ≠ [])

theorem durations_addPhrase (done : List Measure × List Diagnostic) (phrase : Text) :
    (addPhrase ctx chordAt line done phrase).1.map Measure.duration =
      done.1.map Measure.duration ++ (wordRows [phrase]).map (sharesOf · ctx.budget) := by
  unfold addPhrase
  cases found : Text.words phrase with
  | nil => simp [wordRows, found]
  | cons word rest => simp [wordRows, found, durations_barOf]

theorem durations_addLine (measures : List Measure) (phrases : List Text) :
    (addLine ctx chordAt line measures phrases).1.map Measure.duration =
      measures.map Measure.duration ++ (wordRows phrases).map (sharesOf · ctx.budget) := by
  have fold (done : List Measure × List Diagnostic) :
      (phrases.foldl (addPhrase ctx chordAt line) done).1.map Measure.duration =
        done.1.map Measure.duration ++ (wordRows phrases).map (sharesOf · ctx.budget) := by
    induction phrases generalizing done with
    | nil => simp [wordRows]
    | cons phrase rest ih =>
      have split : wordRows (phrase :: rest) = wordRows [phrase] ++ wordRows rest := by
        simp [wordRows, List.filter_cons]
        split <;> rfl
      rw [List.foldl_cons, ih, durations_addPhrase, split, List.map_append, List.append_assoc]
  exact fold _

theorem truncate_of_nonneg {q : Rat} (nonneg : 0 ≤ q) : truncate q = q.floor :=
  if_neg (not_lt.2 nonneg)

theorem truncate_le {q : Rat} (large : 1 ≤ truncate q) : 0 ≤ q ∧ (truncate q : Rat) ≤ q := by
  by_cases negative : q < 0
  · rw [truncate, if_pos negative] at large
    have : q.ceil ≤ 0 := Rat.ceil_le_iff.2 (by simpa using negative.le)
    omega
  · have nonneg := not_lt.1 negative
    rw [truncate_of_nonneg nonneg]
    exact ⟨nonneg, Rat.floor_le q⟩

theorem truncate_intCast (n : Int) : truncate n = n := by
  unfold truncate
  split <;> simp

theorem one_le_shareOf (base : Int) (timed : Text × Rat) : 1 ≤ shareOf base timed := by
  have plain := Bar.one_le_plainLength base timed.2
  unfold shareOf dottedLength
  split <;> omega

theorem shareOf_le {base : Int} {timed : Text × Rat} (room : 1 ≤ truncate (base * timed.2)) :
    (shareOf base timed : Rat) ≤ base * (timed.2 * weight timed.1) := by
  obtain ⟨-, below⟩ := truncate_le room
  have plain : plainLength base timed.2 = truncate (base * timed.2) := max_eq_right room
  unfold shareOf weight dottedLength
  rw [plain]
  split
  · -- the half of a dotted word is rounded down once more
    have half : ((truncate (base * timed.2) / 2 : Int) : Rat) * 2 ≤ truncate (base * timed.2) := by
      exact_mod_cast Int.ediv_mul_le _ (by decide)
    push_cast
    linarith
  · linarith

theorem shareOf_eq {base : Int} {timed : Text × Rat} (room : 1 ≤ truncate (base * timed.2))
    (whole : (base * timed.2).den = 1) (even : isDotted timed.1 = true → Even (base * timed.2).num) :
    (shareOf base timed : Rat) = base * (timed.2 * weight timed.1) := by
  have steps : ((base * timed.2).num : Rat) = base * timed.2 := Rat.coe_int_num_of_den_eq_one whole
  have plain : plainLength base timed.2 = (base * timed.2).num := by
    rw [plainLength, max_eq_right room, ← steps, truncate_intCast, Rat.num_intCast]
  unfold shareOf weight dottedLength
  rw [plain]
  split
  next dotted =>
    obtain ⟨half, same⟩ := even dotted
    rw [same] at steps ⊢
    rw [← two_mul, Int.mul_ediv_cancel_left _ (by decide : (2 : Int) ≠ 0), ← mul_assoc, ← steps]
    push_cast
    ring
  next => rw [steps, mul_one]

theorem cast_sharesOf (words : List Text) (budget : Int) : (sharesOf words budget : Rat) =
    ((timedFrom 1 words).map fun timed => (shareOf (unitLength words budget) timed : Rat)).sum := by
  rw [sharesOf, Int.cast_list_sum, List.map_map]
  rfl

theorem unitLength_mul_unitCount (words : List Text) (budget : Int) :
    (unitLength words budget : Rat) * unitCount words = ((timedFrom 1 words).map fun timed =>
      (unitLength words budget : Rat) * (timed.2 * weight timed.1)).sum := by
  rw [unitCount, unitsFrom_eq, List.sum_map_mul_left]

theorem unitLength_mul_le {words : List Text} {budget : Int} (nonneg : 0 ≤ budget) :
    (unitLength words budget : Rat) * unitCount words ≤ budget := by
  have size : (0 : Rat) ≤ budget := by exact_mod_cast nonneg
  unfold unitLength
  dsimp only
  split
  next => simpa using size
  next present =>
    have present := not_le.1 present
    rw [truncate_of_nonneg (div_nonneg size present.le)]
    exact (le_div_iff₀ present).1 (Rat.floor_le _)

theorem sharesOf_le {words : List Text} {budget : Int} (nonneg : 0 ≤ budget)
    (room : HasRoom words budget) : sharesOf words budget ≤ budget := by
  have shares : (sharesOf words budget : Rat) ≤ unitLength words budget * unitCount words := by
    rw [cast_sharesOf, unitLength_mul_unitCount]
    exact List.sum_le_sum fun timed member => shareOf_le (room timed member)
  exact_mod_cast shares.trans (unitLength_mul_le nonneg)

theorem SharesEvenly.unitLength_mul {words : List Text} {budget : Int} (even : SharesEvenly words budget) :
    (unitLength words budget : Rat) * unitCount words = budget := by
  have unit := Rat.coe_int_num_of_den_eq_one even.unit
  rw [unitLength, if_neg (not_le.2 even.present), ← unit, truncate_intCast, unit,
    div_mul_cancel₀ _ even.present.ne']

theorem sharesOf_eq {words : List Text} {budget : Int} (room : HasRoom words budget)
    (even : SharesEvenly words budget) : sharesOf words budget = budget := by
  have shares : (sharesOf words budget : Rat) = unitLength words budget * unitCount words := by
    rw [cast_sharesOf, unitLength_mul_unitCount]
    refine congrArg List.sum (List.map_congr_left fun timed member => ?_)
    obtain ⟨whole, half⟩ := even.words timed member
    exact shareOf_eq (room timed member) whole half
  exact_mod_cast shares.trans even.unitLength_mul

theorem le_shareOf {base : Int} {timed : Text × Rat} (whole : (base * timed.2).den = 1)
    (even : isDotted timed.1 = true → Even (base * timed.2).num) :
    (base * (timed.2 * weight timed.1) : Rat) ≤ shareOf base timed := by
  by_cases room : 1 ≤ truncate (base * timed.2)
  · exact (shareOf_eq room whole even).ge
  · -- a share that would be less than one step is at most none, and the word gets one
    have steps : ((base * timed.2).num : Rat) = base * timed.2 := Rat.coe_int_num_of_den_eq_one whole
    rw [← steps, truncate_intCast] at room
    have none : (base * timed.2 : Rat) ≤ 0 := by
      rw [← steps]
      exact_mod_cast (by omega : (base * timed.2).num ≤ 0)
    have weighed : (base * (timed.2 * weight timed.1) : Rat) ≤ 0 := by
      rw [← mul_assoc]
      exact mul_nonpos_of_nonpos_of_nonneg none (by unfold weight; split <;> norm_num)
    exact weighed.trans (by exact_mod_cast Int.le_of_lt (one_le_shareOf base timed))

theorem le_sharesOf {words : List Text} {budget : Int} (even : SharesEvenly words budget) :
    budget ≤ sharesOf words budget := by
  have shares : (unitLength words budget * unitCount words : Rat) ≤ sharesOf words budget := by
    rw [cast_sharesOf, unitLength_mul_unitCount]
    exact List.sum_le_sum fun timed member => le_shareOf (even.words timed member).1 (even.words timed member).2
  rw [even.unitLength_mul] at shares
  exact_mod_cast shares

def IsBeat (word : Text) : Prop :=
  (Mark.ofWord word = .tie ∨ Mark.ofWord word = .step) ∧ isDotted word = false

theorem timedFrom_of_beats {words : List Text} (beats : ∀ word ∈ words, IsBeat word) (unit : Rat) :
    timedFrom unit words = words.map fun word => (word, unit) := by
  induction words with
  | nil => rfl
  | cons word rest ih =>
    obtain ⟨⟨mark, -⟩, later⟩ := List.forall_mem_cons.1 beats
    rw [timedFrom, List.map_cons, ← ih later]
    rcases mark with tie | step
    · simp only [tie]
    · simp only [step]

theorem unitCount_of_beats {words : List Text} (beats : ∀ word ∈ words, IsBeat word) :
    unitCount words = words.length := by
  have weights : words.map ((fun timed : Text × Rat => timed.2 * weight timed.1) ∘ fun word => (word, 1)) =
      words.map fun _ => (1 : Rat) :=
    List.map_congr_left fun word member => by simp [weight, (beats word member).2]
  rw [unitCount, unitsFrom_eq, timedFrom_of_beats beats, List.map_map, weights]
  simp

theorem sharesOf_of_beats {words : List Text} (beats : ∀ word ∈ words, IsBeat word) (budget : Int) :
    sharesOf words budget = words.length * plainLength (unitLength words budget) 1 := by
  have shares : words.map (shareOf (unitLength words budget) ∘ fun word => (word, 1)) =
      words.map fun _ => plainLength (unitLength words budget) 1 :=
    List.map_congr_left fun word member => by simp [shareOf, dottedLength, (beats word member).2]
  rw [sharesOf, timedFrom_of_beats beats, List.map_map, shares]
  simp

theorem le_sharesOf_of_beats_iff {words : List Text} (present : words ≠ [])
    (beats : ∀ word ∈ words, IsBeat word) (budget : Int) :
    budget ≤ sharesOf words budget ↔ (words.length : Int) ∣ budget ∨ budget ≤ words.length := by
  have count : (0 : Int) < words.length := by exact_mod_cast List.length_pos_iff.2 present
  rw [sharesOf_of_beats beats]
  have atLeast := Bar.one_le_plainLength (unitLength words budget) 1
  rcases le_or_gt budget (words.length : Int) with few | many
  · refine ⟨fun _ => .inr few, fun _ => few.trans ?_⟩
    nlinarith
  · have base : unitLength words budget = budget / words.length := by
      have size : (0 : Rat) ≤ budget / words.length :=
        div_nonneg (by exact_mod_cast (count.trans many).le) (by positivity)
      rw [unitLength, unitCount_of_beats beats, if_neg (by exact_mod_cast not_le.2 count),
        truncate_of_nonneg size]
      exact Rat.floor_intCast_div_natCast budget words.length
    have plain : plainLength (unitLength words budget) 1 = budget / words.length := by
      have : 1 ≤ budget / (words.length : Int) := Int.le_ediv_of_mul_le count (by omega)
      rw [plainLength, mul_one, truncate_intCast, base, max_eq_right this]
    have rest := Int.mul_ediv_add_emod budget words.length
    have small := Int.emod_nonneg budget count.ne'
    rw [plain, Int.dvd_iff_emod_eq_zero]
    omega

/-- After a line the measures are as long as before, and the new ones take the shares of their words. A
measure is not overfull if no word would get less than one step, and it is filled if nothing has to be
rounded. -/
theorem addLine_fits (ctx : Context) (chordAt : Nat → Int → Text) (line : Int) (positive : 0 < ctx.budget)
    (measures : List Measure) (phrases : List Text) :
    ∃ durations, (addLine ctx chordAt line measures phrases).1.map Measure.duration =
        measures.map Measure.duration ++ durations ∧
      List.Forall₂ (fun words duration => HasRoom words ctx.budget → duration ≤ ctx.budget ∧
        (SharesEvenly words ctx.budget → duration = ctx.budget)) (wordRows phrases) durations := by
  refine ⟨_, durations_addLine ctx chordAt line measures phrases, ?_⟩
  rw [List.forall₂_map_right_iff, List.forall₂_same]
  exact fun words _ room => ⟨sharesOf_le positive.le room, sharesOf_eq room⟩

theorem addLine_fits_of_dotted : 0 < Context.budget {} ∧
    ∃ filled short, (addLine {} (fun _ _ => []) 1 [] ["(1- 2-) 3- -", "1 2 3 4 5"]).1.map
      Measure.duration = [filled, short] ∧ filled = 48 ∧ short ≤ 48 := by
  have positive : 0 < Context.budget {} := by decide
  obtain ⟨durations, whole, fits⟩ :=
    addLine_fits {} (fun _ _ => []) 1 positive [] ["(1- 2-) 3- -", "1 2 3 4 5"]
  have rows : wordRows ["(1- 2-) 3- -", "1 2 3 4 5"] =
      ([["(", "1-", "2-", ")", "3-", "-"], ["1", "2", "3", "4", "5"]] : List (List Text)) := by decide
  rw [rows] at fits
  obtain ⟨filled, rest, first, others, rfl⟩ := List.forall₂_cons_left_iff.1 fits
  obtain ⟨short, rest, second, none, rfl⟩ := List.forall₂_cons_left_iff.1 others
  obtain rfl := List.forall₂_nil_left_iff.1 none
  exact ⟨positive, filled, short, whole, (first (by decide +kernel)).2 (by decide +kernel),
    (second (by decide +kernel)).1⟩

end ScoreScript.Notation
