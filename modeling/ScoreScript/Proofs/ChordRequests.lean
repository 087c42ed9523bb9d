import ScoreScript.Proofs.ArgumentLists
import ScoreScript.Proofs.SingleRounding

set_option autoImplicit false

namespace ScoreScript.Notation

def degreeRequest (n : Nat) : Text := chordCall ++ (Text.digits 10 n ++ [.char ')'])

theorem isArgument_digits (n : Nat) : (Text.digits 10 n).IsArgument where
  toIsSolid := (Text.isUncut_digits n).toIsSolid
  plain c member listed := by
    obtain ⟨value, figure⟩ := Text.isFigure_of_mem_digits member
    have sign : c = .char ',' ∨ c = .char '(' ∨ c = .char ')' := by simpa [Text.of] using listed
    rcases sign with rfl | rfl | rfl
    · exact figure.bare (by decide)
    · exact absurd figure.unbracketed (by decide)
    · exact absurd figure.unbracketed (by decide)

theorem readCall?_degreeRequest (n : Nat) :
    Text.readCall? (degreeRequest n) = some (Text.of "chord", [Text.digits 10 n]) := by
  have written : degreeRequest n = Text.of "chord" ++ .char '(' :: Text.digits 10 n ++ [.char ')'] := by
    simp [degreeRequest, chordCall, Text.of]
  have single : .char '(' ∉ Text.of "chord" := by decide
  have name : Text.trim (Text.of "chord") = Text.of "chord" := by decide
  rw [written, Text.readCall?_lists single (.one (isArgument_digits n)), name]

theorem chordRequest?_degreeRequest {n : Nat} (positive : 0 < n)
    (short : (Text.digits 10 n).length ≤ Text.digitLimit) :
    chordRequest? (degreeRequest n) = some (some (.degrees n)) := by
  have chord : degreeRequest n ≠ "chord" := by simp [degreeRequest, chordCall, Text.of]
  have root : degreeRequest n ≠ "root" := by simp [degreeRequest, chordCall, Text.of]
  have call : chordCall.isPrefixOf (degreeRequest n) = true :=
    List.isPrefixOf_iff_prefix.2 (List.prefix_append _ _)
  have closes : (degreeRequest n).getLast? = some (.char ')') := by simp [degreeRequest]
  have asked : requestedDegrees? (degreeRequest n) = some n := by
    simp [requestedDegrees?, readCall?_degreeRequest, Text.toIntOrZero_digits short, positive]
  simp [chordRequest?, chord, root, call, closes, asked]

inductive Item where
  | request (n : Nat)
  | note (word : Text)

namespace Item

def text : Item → Text
  | request n => degreeRequest n
  | note word => word

def words : Item → List Text
  | request n => ["chord", "(", Text.digits 10 n, ")"]
  | note word => [word]

def isRequest : Item → Bool
  | request _ => true
  | note _ => false

def IsProper : Item → Prop
  | request _ => True
  | note word => word.IsUncut ∧ word ≠ tie

variable {item : Item} {items : List Item}

theorem words_text (proper : item.IsProper) : Text.words item.text = item.words := by
  cases item with
  | request n =>
    have number := Text.words_append_bracket (c := .char ')') rfl (Text.digits 10 n) []
    rw [Text.words_of_isUncut (Text.isUncut_digits n)] at number
    have whole := Text.words_append_bracket (c := .char '(') rfl "chord" (Text.digits 10 n ++ [.char ')'])
    rw [number] at whole
    exact whole
  | note word => exact Text.words_of_isUncut proper.1

theorem isPlain_of_isUncut {word : Text} (uncut : word.IsUncut) (other : word ≠ tie) : IsPlain word := by
  have brackets : ∀ sign ∈ signs, sign = tie ∨ ∃ c ∈ sign, Text.isBracket c = true := by decide
  intro sign
  obtain ⟨c, member, bracket⟩ := (brackets word sign).resolve_left other
  exact uncut.notMem bracket member

theorem isPlain_digits (n : Nat) : IsPlain (Text.digits 10 n) := by
  have other : Text.digits 10 n ≠ tie := by
    intro same
    have absent : .char '-' ∉ Text.digits 10 n := Text.notMem_digits (by decide) n
    rw [same] at absent
    exact absent (by decide)
  exact isPlain_of_isUncut (Text.isUncut_digits n) other

theorem countP_words (proper : item.IsProper) :
    item.words.countP (IsPlain ·) = 1 + if item.isRequest then 1 else 0 := by
  cases item with
  | request n =>
    have chord : IsPlain "chord" := by decide
    have brackets : ¬IsPlain "(" ∧ ¬IsPlain ")" := by decide
    simp [words, isRequest, chord, brackets, isPlain_digits n]
  | note word => simp [words, isRequest, isPlain_of_isUncut proper.1 proper.2]

theorem countP_flatMap_words (proper : ∀ item ∈ items, item.IsProper) :
    (items.flatMap words).countP (IsPlain ·) = items.length + items.countP isRequest := by
  induction items with
  | nil => rfl
  | cons item rest ih =>
    obtain ⟨here, later⟩ := List.forall_mem_cons.1 proper
    rw [List.flatMap_cons, List.countP_append, countP_words here, ih later, List.countP_cons, List.length_cons]
    omega

theorem stepCount_of_untied {words : List Text} (untied : tie ∉ words) :
    stepCount words = words.countP (IsPlain ·) := by
  induction words with
  | nil => rfl
  | cons word rest ih =>
    obtain ⟨other, later⟩ := not_or.1 (List.mem_cons.not.1 untied)
    by_cases plain : IsPlain word
    · simp [stepCount, plain, Nat.add_comm]
    · simp [stepCount, plain, Ne.symm other, ih later]

theorem tie_notMem_words (proper : item.IsProper) : tie ∉ item.words := by
  cases item with
  | request n =>
    have number : tie ≠ Text.digits 10 n := fun same => isPlain_digits n (by simp [← same, signs, tie])
    have others : tie ∉ (["chord", "(", ")"] : List Text) := by decide
    simp_all [words]
  | note word => simpa [words] using Ne.symm proper.2

end Item

open Item

def phraseOf (items : List Item) : Text := [CodePoint.char ' '].intercalate (items.map Item.text)

theorem words_phraseOf {items : List Item} (proper : ∀ item ∈ items, item.IsProper) :
    Text.words (phraseOf items) = items.flatMap Item.words := by
  rw [phraseOf, Text.words_intercalate (by decide), List.flatMap_map]
  exact List.flatMap_congr fun item member => words_text (proper item member)

theorem not_isPrefixOf_part {phrase word part : Text} (member : word ∈ Text.words phrase)
    (inside : part ∈ (undotted word).splitOn (.char '/')) : chordCall.isPrefixOf part = false := by
  have within : undotted word ⊆ word := by
    unfold undotted
    split
    · exact List.dropLast_subset word
    · exact List.Subset.refl word
  by_contra call
  have start := List.isPrefixOf_iff_prefix.1 (Bool.of_not_eq_false call)
  have letters : chordCall ⊆ word :=
    List.Subset.trans (List.Subset.trans start.subset (Text.subset_of_mem_splitOn inside)) within
  -- a word with a bracket has no letters beside it
  have letter : .char 'c' ∈ word := letters (by decide)
  have opening : .char '(' ∈ word := letters (by decide)
  rcases Text.isUncut_of_mem_words member with ⟨c, bracket, rfl⟩ | uncut
  · obtain rfl := List.mem_singleton.1 letter
    exact absurd bracket (by decide)
  · exact uncut.notMem rfl opening

variable (ctx : Context) (chordAt : Nat → Int → Text) (line : Int)

theorem isDotted_digits (n : Nat) : isDotted (Text.digits 10 n) = false := by
  have last : (Text.digits 10 n).getLast? ≠ some (.char '-') := by
    intro same
    exact Text.notMem_digits (by decide) n (List.mem_of_mem_getLast? same)
  simp [isDotted, last]

theorem ofWord_request (n : Nat) :
    Mark.ofWord "chord" = .step ∧ Mark.ofWord "(" = .bracket (1 / 2) ∧
      Mark.ofWord (Text.digits 10 n) = .step ∧ Mark.ofWord ")" = .bracket 2 :=
  ⟨rfl, rfl, ofWord_eq_step.2 (isPlain_digits n), rfl⟩

theorem plainLength_half {unit : Int} (nonneg : 0 ≤ unit) : plainLength unit (1 / 2) = max 1 (unit / 2) := by
  have half : (unit : Rat) * (1 / 2) = (unit : Rat) / (2 : Nat) := by
    push_cast
    ring
  have size : (0 : Rat) ≤ unit := by exact_mod_cast nonneg
  rw [plainLength, half, truncate_of_nonneg (by positivity)]
  exact congrArg (max 1) (Rat.floor_intCast_div_natCast unit 2)

theorem unitLength_request {budget : Int} (positive : 0 < budget) (n : Nat) :
    unitLength (Item.request n).words budget = 2 * budget / 3 := by
  have units : unitCount (Item.request n).words = 3 / 2 := by
    have free : isDotted (Text.of "chord") = false := by decide
    simp only [unitCount, Item.words, unitsFrom, ofWord_request n, free, isDotted_digits]
    norm_num
  have size : (budget : Rat) / (3 / 2) = ((2 * budget : Int) : Rat) / (3 : Nat) := by
    push_cast
    ring
  have nonneg : (0 : Rat) ≤ budget := by exact_mod_cast positive.le
  rw [unitLength, units, if_neg (by norm_num), truncate_of_nonneg (by positivity), size]
  exact Rat.floor_intCast_div_natCast _ _

theorem addLine_degreeRequest (positive : 0 < ctx.budget) (measures : List Measure) (n : Nat) :
    let whole := max 1 (2 * ctx.budget / 3)
    (addLine ctx chordAt line measures [degreeRequest n]).1 = measures ++
      [[stepOf ctx "chord" whole (chordAt measures.length 0),
        stepOf ctx (Text.digits 10 n) (max 1 (ctx.budget / 3)) (chordAt measures.length whole)]] := by
  intro whole
  have proper : (Item.request n).IsProper := trivial
  have words : Text.words (degreeRequest n) = (Item.request n).words := words_text proper
  have first : plainLength (2 * ctx.budget / 3) 1 = whole := by
    rw [plainLength, mul_one, truncate_intCast]
  have second : plainLength (2 * ctx.budget / 3) (1 * (1 / 2)) = max 1 (ctx.budget / 3) := by
    have third : 2 * ctx.budget / 3 / 2 = ctx.budget / 3 := by omega
    rw [one_mul, plainLength_half (by omega), third]
  have placed : (stepOf ctx "chord" whole (chordAt measures.length 0)).length = whole :=
    Bar.length_stepOf ctx "chord" _ (le_max_left _ _)
  have bar : (barOf ctx chordAt line measures (Item.request n).words).measures = measures ++
      [[stepOf ctx "chord" whole (chordAt measures.length 0),
        stepOf ctx (Text.digits 10 n) (max 1 (ctx.budget / 3)) (chordAt measures.length whole)]] := by
    rw [barOf, unitLength_request positive]
    simp only [Item.words, List.foldl_cons, List.foldl_nil, Bar.addWord, ofWord_request n, first, second,
      Bar.addStep, Bar.measures, placed]
    simp
  rw [addLine, List.foldl_cons, List.foldl_nil, addPhrase, words]
  exact bar

/-- Whether what is written has become the steps of a measure from a number on: a request becomes one step for
the whole chord and one for its number as a note. -/
def Item.IsPlayed (ctx : Context) (chordAt : Int → Text) (measure : Measure) (k : Nat) : Item → Prop
  | request n => IsSpelt ctx chordAt k "chord" measure ∧ IsSpelt ctx chordAt (k + 1) (Text.digits 10 n) measure
  | note word => IsSpelt ctx chordAt k word measure

theorem isPlayed_addLine (measures : List Measure) {items : List Item} (present : items ≠ [])
    (proper : ∀ item ∈ items, item.IsProper) :
    let done := (addLine ctx chordAt line measures [phraseOf items]).1
    done.length = measures.length + 1 ∧ ∃ steps, done[measures.length]? = some steps ∧
      steps.length = items.length + items.countP isRequest ∧
      ∀ before item after, items = before ++ item :: after →
        item.IsPlayed ctx (chordAt measures.length) steps (before.length + before.countP isRequest) := by
  intro done
  let words := items.flatMap Item.words
  have count := countP_flatMap_words proper
  have untied : tie ∉ words := by
    intro member
    obtain ⟨item, inside, here⟩ := List.mem_flatMap.1 member
    exact tie_notMem_words (proper item inside) here
  have filled : words ≠ [] := by
    intro empty
    rw [show items.flatMap Item.words = [] from empty, List.countP_nil] at count
    have := List.length_pos_iff.2 present
    omega
  have row : wordRows [phraseOf items] = [words] := by
    simp [wordRows, words_phraseOf proper, words, filled]
  obtain ⟨steps, here, made, spelt⟩ : Reads ctx chordAt (measures.length + 0) words done :=
    reads_addLine ctx chordAt line [phraseOf items] measures (by simp [row])
  rw [stepCount_of_untied untied, count] at made
  refine ⟨by rw [length_addLine, row]; rfl, steps, here, made, fun before item after parted => ?_⟩
  -- an item has its words in one piece, and each of its plain words has the step at its place
  have played (front back : List Text) (word : Text) (split : item.words = front ++ word :: back)
      (plain : IsPlain word) : IsSpelt ctx (chordAt measures.length)
        (before.length + before.countP isRequest + front.countP (IsPlain ·)) word steps := by
    have whole :
        words = (before.flatMap Item.words ++ front) ++ word :: (back ++ after.flatMap Item.words) := by
      simp [words, parted, split]
    have free : tie ∉ before.flatMap Item.words ++ front := fun member => untied (by simp_all)
    have first : ∀ item ∈ before, item.IsProper := fun item member => proper item (by simp [parted, member])
    have spelt := spelt _ _ _ whole plain
    rwa [stepCount_of_untied free, List.countP_append, countP_flatMap_words first] at spelt
  cases item with
  | request n =>
    have chord := played [] ["(", Text.digits 10 n, ")"] "chord" rfl (by decide)
    have number := played ["chord", "("] [")"] (Text.digits 10 n) rfl (isPlain_digits n)
    exact ⟨chord, number⟩
  | note word =>
    obtain ⟨uncut, other⟩ := proper (.note word) (by simp [parted])
    exact played [] [] word rfl (isPlain_of_isUncut uncut other)

/-- A request with a number is understood as such where it is a word, but no part of a word of a phrase is one.
A phrase of requests and notes has a step for each of them only if it has no requests, for a request becomes two
steps; alone it gives two thirds of a measure to the whole chord and a third to its number as a note. -/
theorem requests_make_two_steps (measures : List Measure) :
    (∀ items, items ≠ [] → (∀ item ∈ items, Item.IsProper item) →
      let done := (addLine ctx chordAt line measures [phraseOf items]).1
      done.length = measures.length + 1 ∧ ∃ steps, done[measures.length]? = some steps ∧
        (steps.length = items.length ↔ ∀ item ∈ items, item.isRequest = false) ∧
        steps.length = items.length + items.countP isRequest ∧
        ∀ before item after, items = before ++ item :: after →
          item.IsPlayed ctx (chordAt measures.length) steps (before.length + before.countP isRequest)) ∧
    (0 < ctx.budget → ∀ n, let whole := max 1 (2 * ctx.budget / 3)
      (addLine ctx chordAt line measures [degreeRequest n]).1 = measures ++
        [[stepOf ctx "chord" whole (chordAt measures.length 0),
          stepOf ctx (Text.digits 10 n) (max 1 (ctx.budget / 3)) (chordAt measures.length whole)]]) ∧
    (∀ n, 0 < n → (Text.digits 10 n).length ≤ Text.digitLimit →
      chordRequest? (degreeRequest n) = some (some (.degrees n))) ∧
    ∀ phrase, ∀ word ∈ Text.words phrase, ∀ part ∈ (undotted word).splitOn (.char '/'),
      ∀ n, chordRequest? part ≠ some (some (.degrees n)) := by
  refine ⟨?_, fun positive n => addLine_degreeRequest ctx chordAt line positive measures n,
    fun n positive short => chordRequest?_degreeRequest positive short, ?_⟩
  · intro items present proper
    obtain ⟨bars, steps, here, made, played⟩ := isPlayed_addLine ctx chordAt line measures present proper
    refine ⟨bars, steps, here, ?_, made, played⟩
    rw [made, Nat.add_eq_left, List.countP_eq_zero]
    simp
  · intro phrase word member part inside n
    have call := not_isPrefixOf_part member inside
    unfold chordRequest?
    split_ifs <;> simp_all

theorem requests_make_two_steps_of_secondDegrees :
    (∃ steps, (addLine { octave := 5 } (fun _ _ => "1M") 1 [] ["1 chord(2) 5"]).1 = [steps] ∧ steps.length = 4) ∧
      (addLine { octave := 5 } (fun _ _ => "1M") 1 [] ["chord(3)"]).1.map (List.map Step.length) = [[32, 16]] ∧
      chordRequest? "chord(3)" = some (some (.degrees 3)) := by
  obtain ⟨items, alone, understood, -⟩ := requests_make_two_steps { octave := 5 } (fun _ _ => "1M") 1 []
  have proper : ∀ item ∈ [Item.note "1", .request 2, .note "5"], item.IsProper := by
    simp only [List.forall_mem_cons]
    exact ⟨⟨⟨⟨by decide, by decide⟩, by decide⟩, by decide⟩, trivial,
      ⟨⟨⟨by decide, by decide⟩, by decide⟩, by decide⟩, by simp⟩
  obtain ⟨bars, steps, here, -, made, -⟩ := items _ (by simp) proper
  refine ⟨⟨steps, ?_, made⟩, ?_, understood 3 (by decide) (by decide)⟩
  · obtain ⟨only, same⟩ := List.length_eq_one_iff.1 bars
    rw [same] at here
    cases here
    exact same
  · rw [show (["chord(3)"] : List Text) = [degreeRequest 3] from rfl, alone (by decide) 3]
    decide +kernel

theorem secondDegrees_not_found :
    standardChords.knows "1M" = true ∧ chordRequest? "chord(2)" = some (some (.degrees 2)) ∧
      (stepOf { octave := 5 } "chord(2)" 48 "1M").pitches = [60, 64] ∧
      (addLine { octave := 5 } (fun _ _ => "1M") 1 [] ["chord(2)"]).1.map (List.map Step.pitches) =
        [[[60, 64, 67], [62]]] ∧
      (addLine { octave := 5 } (fun _ _ => "1M") 1 [] ["chord(2)"]).1 ≠
        [[stepOf { octave := 5 } "chord(2)" 48 "1M"]] := by
  decide +kernel

end ScoreScript.Notation
