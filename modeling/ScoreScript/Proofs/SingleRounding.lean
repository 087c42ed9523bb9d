import Mathlib.Tactic.LinearCombination
import ScoreScript.Proofs.CoveredBar
import ScoreScript.Proofs.PhraseWords

set_option autoImplicit false

/-!
# Lengths that are rounded once

The budget of a measure is divided by the units of its words and rounded down, and what a word takes of that is
rounded down once more. While no bracket is closed that has not been opened, the second divisor is a whole
number. So every length is what it would be if it were rounded once, and brackets around a whole phrase do not
change it.
-/

namespace ScoreScript.Notation

def bracketCount (c : Char) (words : List Text) : Nat := words.count [.char c]

structure IsNested (words : List Text) : Prop where
  parentheses : ∀ before, before <+: words → bracketCount ')' before ≤ bracketCount '(' before
  squares : ∀ before, before <+: words → bracketCount ']' before ≤ bracketCount '[' before

instance (words : List Text) : Decidable (IsNested words) :=
  decidable_of_iff (∀ before ∈ words.inits, bracketCount ')' before ≤ bracketCount '(' before ∧
      bracketCount ']' before ≤ bracketCount '[' before)
    ⟨fun all => ⟨fun before start => (all before ((List.mem_inits ..).2 start)).1,
      fun before start => (all before ((List.mem_inits ..).2 start)).2⟩,
    fun nested before member => ⟨nested.parentheses before ((List.mem_inits ..).1 member),
      nested.squares before ((List.mem_inits ..).1 member)⟩⟩

def openParentheses (words : List Text) : Nat := bracketCount '(' words - bracketCount ')' words

def openSquares (words : List Text) : Nat := bracketCount '[' words - bracketCount ']' words

def roundedLength (words : List Text) (budget : Int) (before : List Text) : Int :=
  max 1 ⌊(budget : Rat) / (unitCount words * 2 ^ openParentheses before * 3 ^ openSquares before)⌋

/-- The lengths of the steps that words at the start of a phrase make, each rounded once. -/
inductive Lengthens (words : List Text) (budget : Int) : List Text → List Int → Prop
  | start : Lengthens words budget [] []
  | bracket {before : List Text} {lengths : List Int} {word : Text}
    (made : Lengthens words budget before lengths) (sign : ¬IsPlain word) (other : word ≠ tie) :
    Lengthens words budget (before ++ [word]) lengths
  | plain {before : List Text} {lengths : List Int} {word : Text}
    (made : Lengthens words budget before lengths) (plain : IsPlain word) (free : isDotted word = false) :
    Lengthens words budget (before ++ [word]) (lengths ++ [roundedLength words budget before])
  | dotted {before : List Text} {lengths : List Int} {word : Text}
    (made : Lengthens words budget before lengths) (plain : IsPlain word) (dotted : isDotted word = true) :
    Lengthens words budget (before ++ [word])
      (lengths ++ [roundedLength words budget before + roundedLength words budget before / 2])
  | extended {before : List Text} {lengths : List Int} {last : Int}
    (made : Lengthens words budget before (lengths ++ [last])) :
    Lengthens words budget (before ++ [tie]) (lengths ++ [last + roundedLength words budget before])
  | opened {before : List Text} (made : Lengthens words budget before []) :
    Lengthens words budget (before ++ [tie]) [roundedLength words budget before]

/-! ### Units -/

def scale : List Text → Rat
  | [] => 1
  | word :: rest =>
    match Mark.ofWord word with
    | .bracket factor => factor * scale rest
    | .brace | .tie | .step => scale rest

@[simp] theorem bracketCount_nil (c : Char) : bracketCount c [] = 0 := rfl

@[simp] theorem bracketCount_cons (c : Char) (word : Text) (rest : List Text) :
    bracketCount c (word :: rest) = bracketCount c rest + if word = [.char c] then 1 else 0 := by
  simp [bracketCount, List.count_cons]

@[simp] theorem bracketCount_append (c : Char) (first second : List Text) :
    bracketCount c (first ++ second) = bracketCount c first + bracketCount c second :=
  List.count_append

theorem scale_eq (words : List Text) : scale words * (2 ^ bracketCount '(' words * 3 ^ bracketCount '[' words) =
    2 ^ bracketCount ')' words * 3 ^ bracketCount ']' words := by
  induction words with
  | nil => simp [scale]
  | cons word rest ih =>
    simp only [bracketCount_cons, scale]
    cases mark : Mark.ofWord word with
    | bracket factor =>
      unfold Mark.ofWord at mark
      split at mark
      · cases mark
        simp [pow_succ]
        linear_combination ih
      · cases mark
        simp [pow_succ]
        linear_combination 2 * ih
      · cases mark
        simp [pow_succ]
        linear_combination ih
      · cases mark
        simp [pow_succ]
        linear_combination 3 * ih
      all_goals cases mark
    | brace | tie | step =>
      have other (c : Char) (bracket : c ∈ ['(', ')', '[', ']']) : word ≠ [.char c] := by
        rintro rfl
        simp at bracket
        rcases bracket with rfl | rfl | rfl | rfl <;> cases mark
      simpa [other] using ih

theorem IsNested.scale_eq {words : List Text} (nested : IsNested words) {before : List Text}
    (start : before <+: words) :
    scale before = ((2 ^ openParentheses before * 3 ^ openSquares before : Nat) : Rat)⁻¹ := by
  have parentheses : bracketCount '(' before = openParentheses before + bracketCount ')' before := by
    have := nested.parentheses before start
    unfold openParentheses
    omega
  have squares : bracketCount '[' before = openSquares before + bracketCount ']' before := by
    have := nested.squares before start
    unfold openSquares
    omega
  have balance := Notation.scale_eq before
  rw [parentheses, squares, pow_add, pow_add] at balance
  have closed : (2 ^ bracketCount ')' before * 3 ^ bracketCount ']' before : Rat) ≠ 0 := by positivity
  refine eq_inv_of_mul_eq_one_left (mul_right_cancel₀ closed ?_)
  push_cast
  linear_combination balance

theorem pos_of_mem_timedFrom {unit : Rat} (positive : 0 < unit) {words : List Text} :
    ∀ timed ∈ timedFrom unit words, 0 < timed.2 := by
  induction words generalizing unit with
  | nil => simp [timedFrom]
  | cons word rest ih =>
    unfold timedFrom
    cases mark : Mark.ofWord word with
    | bracket factor =>
      have : 0 < factor := by
        unfold Mark.ofWord at mark
        split at mark <;> cases mark <;> norm_num
      exact ih (mul_pos positive this)
    | brace => exact ih positive
    | tie | step => exact List.forall_mem_cons.2 ⟨positive, ih positive⟩

theorem timedFrom_ne_nil {words : List Text} {word : Text} (member : word ∈ words)
    (timed : word = tie ∨ IsPlain word) (unit : Rat) : timedFrom unit words ≠ [] := by
  have mark := timed.imp ofWord_eq_tie.2 ofWord_eq_step.2
  induction words generalizing unit with
  | nil => cases member
  | cons first rest ih =>
    unfold timedFrom
    rcases List.mem_cons.1 member with rfl | later
    · rcases mark with tie | step
      · simp [tie]
      · simp [step]
    · split
      · exact ih later _
      · exact ih later _
      all_goals simp

theorem unitCount_pos {words : List Text} {word : Text} (member : word ∈ words)
    (timed : word = tie ∨ IsPlain word) : 0 < unitCount words := by
  rw [unitCount, unitsFrom_eq]
  refine List.sum_pos _ (fun units inside => ?_) (by simpa using timedFrom_ne_nil member timed 1)
  obtain ⟨entry, inTimed, rfl⟩ := List.mem_map.1 inside
  have weighs : 0 < weight entry.1 := by
    unfold weight
    split <;> norm_num
  exact mul_pos (pos_of_mem_timedFrom one_pos entry inTimed) weighs

theorem plainLength_eq {words before : List Text} {word : Text} {budget : Int} (positive : 0 < budget)
    (nested : IsNested words) (start : before <+: words) (member : word ∈ words)
    (timed : word = tie ∨ IsPlain word) :
    plainLength (unitLength words budget) (scale before) = roundedLength words budget before := by
  have units := unitCount_pos member timed
  have size : (0 : Rat) ≤ budget / unitCount words := div_nonneg (by exact_mod_cast positive.le) units.le
  have base : unitLength words budget = ⌊(budget : Rat) / unitCount words⌋ := by
    rw [unitLength, if_neg (not_le.2 units), truncate_of_nonneg size]
    rfl
  have nonneg : (0 : Rat) ≤ ⌊(budget : Rat) / unitCount words⌋ := by exact_mod_cast Int.floor_nonneg.2 size
  -- what the open brackets divide by is a whole number, so the inner floor can be left out
  have divisor : unitCount words * 2 ^ openParentheses before * 3 ^ openSquares before =
      unitCount words * (2 ^ openParentheses before * 3 ^ openSquares before : Nat) := by
    push_cast
    ring
  rw [plainLength, base, nested.scale_eq start, ← div_eq_mul_inv,
    truncate_of_nonneg (div_nonneg nonneg (Nat.cast_nonneg _)), roundedLength, divisor, ← div_div,
    Int.floor_div_natCast]
  exact congrArg (max 1) (Rat.floor_intCast_div_natCast _ _)

/-! ### Rows of lengths -/

theorem scale_append (first second : List Text) : scale (first ++ second) = scale first * scale second := by
  induction first with
  | nil => simp [scale]
  | cons word rest ih =>
    rw [List.cons_append, scale, scale]
    split <;> simp [ih, mul_assoc]

def heldLengths (lengths : List Int) (length : Int) : List Int :=
  match lengths.getLast? with
  | none => [length]
  | some last => lengths.dropLast ++ [last + length]

def lengthsAfter (base : Int) (row : Rat × List Int) (word : Text) : Rat × List Int :=
  let length := plainLength base row.1
  match Mark.ofWord word with
  | .bracket factor => (row.1 * factor, row.2)
  | .brace => row
  | .tie => (row.1, heldLengths row.2 length)
  | .step => (row.1, row.2 ++ [dottedLength word length])

def rowLengths (words : List Text) (budget : Int) : List Int :=
  (words.foldl (lengthsAfter (unitLength words budget)) (1, [])).2

theorem lengthens_rowLengths {words : List Text} {budget : Int} (positive : 0 < budget)
    (nested : IsNested words) : Lengthens words budget words (rowLengths words budget) := by
  -- over the words so far, for all of them give the same base and only those in front the unit
  have run (before : List Text) (start : before <+: words) :
      (before.foldl (lengthsAfter (unitLength words budget)) (1, [])).1 = scale before ∧
        Lengthens words budget before
          (before.foldl (lengthsAfter (unitLength words budget)) (1, [])).2 := by
    induction before using List.reverseRecOn with
    | nil => exact ⟨rfl, .start⟩
    | append_singleton before word ih =>
      obtain ⟨unit, made⟩ := ih ((List.prefix_append _ _).trans start)
      have member : word ∈ words := start.subset (by simp)
      have length := plainLength_eq positive nested ((List.prefix_append before [word]).trans start) member
      rw [List.foldl_append, List.foldl_cons, List.foldl_nil, scale_append]
      generalize before.foldl (lengthsAfter (unitLength words budget)) (1, []) = row at unit made
      obtain ⟨_, lengths⟩ := row
      dsimp only at unit made
      subst unit
      unfold lengthsAfter
      dsimp only
      cases mark : Mark.ofWord word with
      | bracket | brace =>
        exact ⟨by simp [scale, mark], .bracket made (fun plain => by simp [ofWord_eq_step.2 plain] at mark)
          fun same => by simp [ofWord_eq_tie.2 same] at mark⟩
      | tie =>
        refine ⟨by simp [scale, mark], ?_⟩
        obtain rfl := ofWord_eq_tie.1 mark
        rw [length (.inl rfl)]
        rcases List.eq_nil_or_concat' lengths with rfl | ⟨front, last, rfl⟩
        · exact .opened made
        · simpa [heldLengths] using .extended made
      | step =>
        refine ⟨by simp [scale, mark], ?_⟩
        have plain := ofWord_eq_step.1 mark
        rw [length (.inr plain)]
        cases dotted : isDotted word with
        | false => simpa [dottedLength, dotted] using .plain made plain dotted
        | true => simpa [dottedLength, dotted] using .dotted made plain dotted
  exact (run words (List.prefix_refl words)).2

namespace Bar

variable (ctx : Context) (chordAt : Nat → Int → Text) (line base : Int)

theorem lengths_addTie (b : Bar) (velocity length : Int) :
    (b.addTie velocity length).unit = b.unit ∧
      (b.addTie velocity length).steps.map Step.length = heldLengths (b.steps.map Step.length) length := by
  rcases List.eq_nil_or_concat' b.steps with empty | ⟨steps, last, filled⟩
  · cases found : heldStep? b.earlier with
    | none => simp [addTie_of_silence empty found, empty, heldLengths]
    | some pair =>
      simp [addTie_of_held empty (eq_concat_of_heldStep? found), empty, heldLengths, continuation]
  · simp [addTie_of_steps filled, filled, heldLengths]

def lengths (b : Bar) : Rat × List Int := (b.unit, b.steps.map Step.length)

theorem lengths_addWord (b : Bar) (word : Text) :
    (b.addWord ctx chordAt line base word).lengths = lengthsAfter base b.lengths word := by
  unfold addWord lengthsAfter
  dsimp only
  cases Mark.ofWord word with
  | bracket factor => rfl
  | brace => rfl
  | tie =>
    obtain ⟨unit, steps⟩ := lengths_addTie b ctx.velocity (plainLength base b.unit)
    simp [lengths, unit, steps]
  | step => simp [lengths, addStep, length_stepOf ctx word _ (one_le_plainLength base b.unit)]

end Bar

variable (ctx : Context) (chordAt : Nat → Int → Text) (line : Int)

theorem lengths_barOf (measures : List Measure) (words : List Text) :
    (barOf ctx chordAt line measures words).steps.map Step.length = rowLengths words ctx.budget := by
  have row : (barOf ctx chordAt line measures words).lengths =
      words.foldl (lengthsAfter (unitLength words ctx.budget)) (1, []) :=
    (List.foldl_hom Bar.lengths fun b word => (Bar.lengths_addWord ctx chordAt line _ b word).symm).symm
  exact congrArg Prod.snd row

theorem Retied.lengths {measures after : List Measure} (retied : Retied measures after) :
    after.map (List.map Step.length) = measures.map (List.map Step.length) := by
  cases retied with
  | same => rfl
  | held => simp

theorem lengths_addLine (measures : List Measure) (phrases : List Text) :
    (addLine ctx chordAt line measures phrases).1.map (List.map Step.length) =
      measures.map (List.map Step.length) ++ (wordRows phrases).map (rowLengths · ctx.budget) := by
  rw [addLine_eq]
  generalize wordRows phrases = rows
  induction rows generalizing measures with
  | nil => simp [addRows]
  | cons words rest ih =>
    rw [← List.singleton_append, addRows_append, ih]
    simp [addRows, Bar.measures, (retied_barOf ctx chordAt 0 measures words).lengths, lengths_barOf]

/-! ### Brackets around a phrase -/

def bracketPairs : List (Char × Char) := [('(', ')'), ('[', ']'), ('{', '}')]

def encloseIn (pair : Char × Char) (phrase : Text) : Text := .char pair.1 :: (phrase ++ [.char pair.2])

def enclose (pairs : List (Char × Char)) (phrase : Text) : Text := pairs.foldr encloseIn phrase

def encloseWords (pair : Char × Char) (words : List Text) : List Text :=
  [.char pair.1] :: (words ++ [[.char pair.2]])

variable {pair : Char × Char} {words : List Text}

theorem words_encloseIn (known : pair ∈ bracketPairs) (phrase : Text) :
    Text.words (encloseIn pair phrase) = encloseWords pair (Text.words phrase) := by
  have brackets : Text.isBracket (.char pair.1) = true ∧ Text.isBracket (.char pair.2) = true := by
    revert pair
    decide
  have opened := Text.words_append_bracket brackets.1 [] (phrase ++ [.char pair.2])
  rw [Text.words_append_bracket brackets.2 phrase []] at opened
  exact opened

theorem bracketPairs_apart : ∀ pair ∈ bracketPairs, ∀ other ∈ bracketPairs,
    pair.1 ≠ other.2 ∧ (pair.2 = other.2 → pair.1 = other.1) := by
  decide

theorem IsNested.enclose (nested : IsNested words) (known : pair ∈ bracketPairs) :
    IsNested (encloseWords pair words) := by
  have counts (other : Char × Char) (known' : other ∈ bracketPairs)
      (closed : ∀ before, before <+: words → bracketCount other.2 before ≤ bracketCount other.1 before)
      (before : List Text) (start : before <+: encloseWords pair words) :
      bracketCount other.2 before ≤ bracketCount other.1 before := by
    obtain ⟨opening, closing⟩ := bracketPairs_apart pair known other known'
    have apart := (bracketPairs_apart other known' other known').1
    rcases List.prefix_cons_iff.1 start with rfl | ⟨inner, rfl, here⟩
    · simp
    rcases List.prefix_concat_iff.1 here with rfl | inside
    · have := closed words (List.prefix_refl words)
      by_cases same : pair.2 = other.2
      · simpa [apart, apart.symm, same, closing same] using this
      · simp [opening, same]
        omega
    · have := closed inner inside
      simp [opening]
      omega
  exact ⟨counts ('(', ')') (by decide) nested.parentheses, counts ('[', ']') (by decide) nested.squares⟩

theorem unitsFrom_mul (factor unit : Rat) (words : List Text) :
    unitsFrom (factor * unit) words = factor * unitsFrom unit words := by
  induction words generalizing unit with
  | nil => simp [unitsFrom]
  | cons word rest ih =>
    rw [unitsFrom, unitsFrom]
    cases Mark.ofWord word with
    | bracket inner => simp [mul_assoc, ih]
    | brace => exact ih unit
    | tie => simp [ih, mul_add]
    | step => split_ifs <;> simp [ih, mul_add, mul_assoc]

theorem unitsFrom_append (unit : Rat) (first second : List Text) :
    unitsFrom unit (first ++ second) = unitsFrom unit first + unitsFrom (unit * scale first) second := by
  induction first generalizing unit with
  | nil => simp [unitsFrom, scale]
  | cons word rest ih =>
    rw [List.cons_append, unitsFrom, unitsFrom, scale]
    cases Mark.ofWord word with
    | bracket factor => simp [ih, mul_assoc]
    | brace => exact ih unit
    | tie | step => simp [ih, add_assoc]

def IsSign (word : Text) : Prop := Mark.ofWord word = .brace ∨ ∃ factor, Mark.ofWord word = .bracket factor

theorem unitsFrom_of_isSign {word : Text} (sign : IsSign word) (unit : Rat) : unitsFrom unit [word] = 0 := by
  rcases sign with brace | ⟨factor, bracket⟩
  · simp [unitsFrom, brace]
  · simp [unitsFrom, bracket]

theorem isSign_of_mem (known : pair ∈ bracketPairs) :
    IsSign [.char pair.1] ∧ IsSign [.char pair.2] ∧ 0 < scale [[.char pair.1]] := by
  simp only [bracketPairs, List.mem_cons, List.not_mem_nil, or_false] at known
  rcases known with rfl | rfl | rfl
  · exact ⟨.inr ⟨_, rfl⟩, .inr ⟨_, rfl⟩, by decide +kernel⟩
  · exact ⟨.inr ⟨_, rfl⟩, .inr ⟨_, rfl⟩, by decide +kernel⟩
  · exact ⟨.inl rfl, .inl rfl, by decide +kernel⟩

theorem unitCount_encloseWords (known : pair ∈ bracketPairs) (words : List Text) :
    unitCount (encloseWords pair words) = scale [[.char pair.1]] * unitCount words := by
  obtain ⟨opening, closing, -⟩ := isSign_of_mem known
  rw [unitCount, encloseWords, ← List.singleton_append, unitsFrom_append, unitsFrom_append,
    unitsFrom_of_isSign opening, unitsFrom_of_isSign closing, one_mul, zero_add, add_zero, unitCount,
    ← unitsFrom_mul, mul_one]

theorem IsNested.roundedLength_eq (nested : IsNested words) {before : List Text} (start : before <+: words)
    (budget : Int) : roundedLength words budget before = max 1 ⌊budget * scale before / unitCount words⌋ := by
  rw [nested.scale_eq start, roundedLength]
  push_cast
  congr 2
  field_simp

theorem roundedLength_encloseWords (nested : IsNested words) (known : pair ∈ bracketPairs) {before : List Text}
    (start : before <+: words) (budget : Int) :
    roundedLength (encloseWords pair words) budget ([.char pair.1] :: before) =
      roundedLength words budget before := by
  have here : [.char pair.1] :: before <+: encloseWords pair words :=
    List.cons_prefix_cons.2 ⟨rfl, start.trans (List.prefix_append _ _)⟩
  rw [(nested.enclose known).roundedLength_eq here, nested.roundedLength_eq start, unitCount_encloseWords known,
    ← List.singleton_append, scale_append, mul_left_comm,
    mul_div_mul_left _ _ (isSign_of_mem known).2.2.ne']

namespace Bar

variable (base : Int)

def withUnit (b : Bar) (unit : Rat) : Bar := { b with unit := unit }

@[simp] theorem withUnit_unit (b : Bar) (unit : Rat) : (b.withUnit unit).unit = unit := rfl

theorem addTie_withUnit (b : Bar) (unit : Rat) (velocity length : Int) :
    (b.withUnit unit).addTie velocity length = (b.addTie velocity length).withUnit unit := by
  unfold addTie withUnit
  dsimp only
  split_ifs
  · rfl
  · split <;> rfl

theorem addWord_withUnit (b : Bar) (unit : Rat) {base' : Int} {word : Text}
    (same : word = tie ∨ IsPlain word → plainLength base' unit = plainLength base b.unit) :
    (b.withUnit unit).addWord ctx chordAt line base' word =
      (b.addWord ctx chordAt line base word).withUnit (unit * scale [word]) := by
  unfold addWord
  simp only [scale]
  cases mark : Mark.ofWord word with
  | bracket factor => simp [withUnit]
  | brace => simp
  | tie =>
    dsimp only
    rw [withUnit_unit, same (.inl (ofWord_eq_tie.1 mark)), addTie_withUnit, mul_one]
  | step =>
    dsimp only
    rw [withUnit_unit, same (.inr (ofWord_eq_step.1 mark)), mul_one]
    rfl

theorem addWord_of_isSign (b : Bar) {word : Text} (sign : IsSign word) :
    b.addWord ctx chordAt line base word = b.withUnit (b.unit * scale [word]) := by
  unfold addWord
  rcases sign with brace | ⟨factor, bracket⟩
  · simp [brace, scale, withUnit]
  · simp [bracket, scale, withUnit]

theorem unit_addWord (b : Bar) (word : Text) :
    (b.addWord ctx chordAt line base word).unit = b.unit * scale [word] := by
  have row := congrArg Prod.fst (lengths_addWord ctx chordAt line base b word)
  rw [lengthsAfter] at row
  cases mark : Mark.ofWord word <;> simpa [lengths, scale, mark] using row

end Bar

theorem barOf_encloseWords (positive : 0 < ctx.budget) (nested : IsNested words) (known : pair ∈ bracketPairs)
    (measures : List Measure) : ∃ unit, barOf ctx chordAt line measures (encloseWords pair words) =
      (barOf ctx chordAt line measures words).withUnit unit := by
  obtain ⟨opening, closing, -⟩ := isSign_of_mem known
  let start : Bar := { earlier := measures }
  let add := Bar.addWord ctx chordAt line (unitLength words ctx.budget)
  let add' := Bar.addWord ctx chordAt line (unitLength (encloseWords pair words) ctx.budget)
  have run (before : List Text) (here : before <+: words) :
      (before.foldl add start).unit = scale before ∧
        before.foldl add' (start.withUnit (scale [[.char pair.1]])) =
          (before.foldl add start).withUnit (scale ([.char pair.1] :: before)) := by
    induction before using List.reverseRecOn with
    | nil => exact ⟨rfl, rfl⟩
    | append_singleton before word ih =>
      have earlier := (List.prefix_append before [word]).trans here
      have member : word ∈ words := here.subset (by simp)
      obtain ⟨unit, same⟩ := ih earlier
      simp only [List.foldl_append, List.foldl_cons, List.foldl_nil]
      refine ⟨by rw [Bar.unit_addWord, unit, scale_append], ?_⟩
      rw [same, ← List.cons_append, scale_append]
      refine Bar.addWord_withUnit _ _ _ _ _ _ fun timed => ?_
      have whole : [.char pair.1] :: before <+: encloseWords pair words :=
        List.cons_prefix_cons.2 ⟨rfl, earlier.trans (List.prefix_append _ _)⟩
      have inside : word ∈ encloseWords pair words := by simp [encloseWords, member]
      rw [unit, plainLength_eq positive nested earlier member timed,
        plainLength_eq positive (nested.enclose known) whole inside timed,
        roundedLength_encloseWords nested known earlier]
  obtain ⟨-, same⟩ := run words (List.prefix_refl words)
  refine ⟨scale ([.char pair.1] :: words) * scale [[.char pair.2]], ?_⟩
  change ([.char pair.1] :: (words ++ [[.char pair.2]])).foldl add' start = _
  have first : add' start [.char pair.1] = start.withUnit (scale [[.char pair.1]]) := by
    rw [← one_mul (scale _)]
    exact Bar.addWord_of_isSign _ _ _ _ _ opening
  rw [List.foldl_cons, List.foldl_append, first, same]
  exact Bar.addWord_of_isSign _ _ _ _ _ closing

theorem addPhrase_encloseIn (positive : 0 < ctx.budget) {phrase : Text} (present : Text.words phrase ≠ [])
    (nested : IsNested (Text.words phrase)) (known : pair ∈ bracketPairs)
    (done : List Measure × List Diagnostic) :
    addPhrase ctx chordAt line done (encloseIn pair phrase) = addPhrase ctx chordAt line done phrase := by
  obtain ⟨unit, same⟩ := barOf_encloseWords ctx chordAt line positive nested known done.1
  unfold addPhrase
  rw [words_encloseIn known]
  cases found : Text.words phrase with
  | nil => exact absurd found present
  | cons word rest =>
    rw [found] at same
    have both := congrArg (fun b : Bar => (b.measures, done.2 ++ b.reports)) same
    exact both

theorem rowLengths_encloseWords (positive : 0 < ctx.budget) (nested : IsNested words)
    (known : pair ∈ bracketPairs) :
    rowLengths (encloseWords pair words) ctx.budget = rowLengths words ctx.budget := by
  obtain ⟨unit, same⟩ := barOf_encloseWords ctx (fun _ _ => []) 0 positive nested known []
  rw [← lengths_barOf ctx (fun _ _ => []) 0 [], ← lengths_barOf ctx (fun _ _ => []) 0 [], same]
  rfl

structure SoundsLike (phrase other : Text) : Prop where
  nested : IsNested (Text.words phrase)
  lengths : rowLengths (Text.words phrase) ctx.budget = rowLengths (Text.words other) ctx.budget
  present : Text.words other ≠ [] → Text.words phrase ≠ []
  notes : Text.words other ≠ [] →
    ∀ done, addPhrase ctx chordAt line done phrase = addPhrase ctx chordAt line done other

theorem soundsLike_enclose (positive : 0 < ctx.budget) {phrase : Text} (nested : IsNested (Text.words phrase))
    {pairs : List (Char × Char)} (known : pairs ⊆ bracketPairs) :
    SoundsLike ctx chordAt line (enclose pairs phrase) phrase := by
  induction pairs with
  | nil => exact ⟨nested, rfl, id, fun _ _ => rfl⟩
  | cons pair rest ih =>
    obtain ⟨known, others⟩ := List.cons_subset.1 known
    obtain ⟨inner, lengths, present, notes⟩ := ih others
    have words : Text.words (enclose (pair :: rest) phrase) = _ := words_encloseIn known (enclose rest phrase)
    constructor
    · rw [words]
      exact inner.enclose known
    · rw [words, rowLengths_encloseWords ctx positive inner known, lengths]
    · intro _
      simp [words, encloseWords]
    · intro filled done
      rw [← notes filled]
      exact addPhrase_encloseIn ctx chordAt line positive (present filled) inner known done

theorem flatten_wordRows (phrases : List Text) (budget : Int) :
    ((wordRows phrases).map (rowLengths · budget)).flatten =
      phrases.flatMap fun phrase => rowLengths (Text.words phrase) budget := by
  induction phrases with
  | nil => rfl
  | cons phrase rest ih =>
    rw [← List.singleton_append, wordRows_append, List.map_append, List.flatten_append, ih, List.flatMap_append]
    cases found : Text.words phrase with
    | nil => simp [wordRows, found, rowLengths]
    | cons => simp [wordRows, found]

theorem flatten_lengths_addLine (measures : List Measure) (phrases : List Text) :
    (addLine ctx chordAt line measures phrases).1.flatten.map Step.length =
      measures.flatten.map Step.length ++
        phrases.flatMap fun phrase => rowLengths (Text.words phrase) ctx.budget := by
  rw [List.map_flatten, lengths_addLine, List.flatten_append, flatten_wordRows, ← List.map_flatten]

/-- The steps of a line have lengths that are rounded once. Brackets around a whole phrase change none of them,
and nothing else unless they make a measure of a phrase without words. -/
theorem lengths_rounded_once (positive : 0 < ctx.budget) (measures : List Measure) (phrases : List Text) :
    (∃ rows, (addLine ctx chordAt line measures phrases).1.map (List.map Step.length) =
        measures.map (List.map Step.length) ++ rows ∧
      List.Forall₂ (fun words lengths => IsNested words → Lengthens words ctx.budget words lengths)
        (wordRows phrases) rows) ∧
    ∀ before phrase after pairs, phrases = before ++ phrase :: after → IsNested (Text.words phrase) →
      pairs ⊆ bracketPairs →
      let enclosed := addLine ctx chordAt line measures (before ++ enclose pairs phrase :: after)
      enclosed.1.flatten.map Step.length =
          (addLine ctx chordAt line measures phrases).1.flatten.map Step.length ∧
        (Text.words phrase ≠ [] → enclosed = addLine ctx chordAt line measures phrases) := by
  refine ⟨⟨_, lengths_addLine ctx chordAt line measures phrases, ?_⟩, ?_⟩
  · rw [List.forall₂_map_right_iff, List.forall₂_same]
    exact fun words _ => lengthens_rowLengths positive
  · intro before phrase after pairs parted nested known
    have same := soundsLike_enclose ctx chordAt line positive nested known
    subst parted
    constructor
    · simp only [flatten_lengths_addLine, List.flatMap_append, List.flatMap_cons, same.lengths]
    · intro present
      simp only [addLine, List.foldl_append, List.foldl_cons, same.notes present]

def halvesAndThirds : Text := "1 (2 [3 4-] -) 5"

theorem lengths_rounded_once_of_halvesAndThirds :
    0 < Context.budget {} ∧ IsNested (Text.words halvesAndThirds) ∧
      (addLine {} (fun _ _ => []) 1 [] [halvesAndThirds]).1.map (List.map Step.length) = [[14, 7, 2, 10, 14]] ∧
      Lengthens (Text.words halvesAndThirds) 48 (Text.words halvesAndThirds) [14, 7, 2, 10, 14] ∧
      addLine {} (fun _ _ => []) 1 [] ["([{([1 (2 [3 4-] -) 5])}])"] =
        addLine {} (fun _ _ => []) 1 [] [halvesAndThirds] := by
  have nested : IsNested (Text.words halvesAndThirds) := by decide +kernel
  obtain ⟨⟨rows, made, lengths⟩, enclosed⟩ :=
    lengths_rounded_once {} (fun _ _ => []) 1 (by decide) [] [halvesAndThirds]
  have computed : (addLine {} (fun _ _ => []) 1 [] [halvesAndThirds]).1.map (List.map Step.length) =
      [[14, 7, 2, 10, 14]] := by
    decide +kernel
  have present : Text.words halvesAndThirds ≠ [] := by decide +kernel
  have only : wordRows [halvesAndThirds] = [Text.words halvesAndThirds] := by decide +kernel
  refine ⟨by decide, nested, computed, ?_, ?_⟩
  · rw [made, List.map_nil, List.nil_append] at computed
    subst computed
    rw [only] at lengths
    exact (List.forall₂_cons.1 lengths).1 nested
  · exact (enclosed [] halvesAndThirds [] [('(', ')'), ('[', ']'), ('{', '}'), ('(', ')'), ('[', ']')] rfl nested
      (by decide)).2 present

end ScoreScript.Notation
