import ScoreScript.Proofs.Shares

set_option autoImplicit false

namespace ScoreScript

def Step.shape (s : Step) : Int × Bool × Bool := (s.length, s.tiesForward, s.tiesBackward)

theorem Step.shape_eq {s other : Step} (same : s.shape = other.shape) :
    s.length = other.length ∧ s.tiesForward = other.tiesForward ∧
      s.tiesBackward = other.tiesBackward := by
  simpa [shape] using same

namespace Measure

def stepIn? (measures : List Measure) (m n : Nat) : Option Step := measures[m]?.bind (·[n]?)

theorem stepIn?_concat_nil (measures : List Measure) (m n : Nat) :
    stepIn? (measures ++ [[]]) m n = stepIn? measures m n := by
  unfold stepIn?
  rcases Nat.lt_trichotomy m measures.length with inside | rfl | beyond
  · rw [List.getElem?_append_left inside]
  · simp
  · rw [List.getElem?_eq_none (by simp; omega), List.getElem?_eq_none (by omega)]

theorem stepIn?_concat_step (earlier : List Measure) (steps : Measure) (step : Step) (m n : Nat) :
    stepIn? (earlier ++ [steps ++ [step]]) m n =
      if m = earlier.length ∧ n = steps.length then some step else stepIn? (earlier ++ [steps]) m n := by
  unfold stepIn?
  rcases Nat.lt_trichotomy m earlier.length with inside | rfl | beyond
  · rw [List.getElem?_append_left inside, List.getElem?_append_left inside,
      if_neg (by omega)]
  · simp only [List.getElem?_concat_length, Option.bind_some, true_and]
    rcases Nat.lt_trichotomy n steps.length with before | rfl | after
    · rw [List.getElem?_append_left before, if_neg (by omega)]
    · simp
    · rw [List.getElem?_eq_none (by simp; omega), List.getElem?_eq_none (by omega), if_neg (by omega)]
  · rw [List.getElem?_eq_none (by simp; omega), List.getElem?_eq_none (by simp; omega),
      if_neg (by omega)]

/-- Whether a place is that of a given step, or the start of a measure into which the step is held: over
each bar between them the last step of a measure is tied to the first one of the next. -/
inductive Continues (measures : List Measure) (m₀ n₀ : Nat) : Nat → Nat → Prop where
  | start : Continues measures m₀ n₀ m₀ n₀
  | onward {m n : Nat} {measure : Measure} {held next : Step} {rest : Measure}
    (before : Continues measures m₀ n₀ m n) (here : measures[m]? = some measure)
    (last : measure[n]? = some held ∧ n + 1 = measure.length)
    (there : measures[m + 1]? = some (next :: rest))
    (tied : held.tiesForward = true ∧ next.tiesBackward = true) : Continues measures m₀ n₀ (m + 1) 0

structure DifferFrom (m₀ n₀ : Nat) (measures others : List Measure) : Prop where
  shapes : measures.map (List.map Step.shape) = others.map (List.map Step.shape)
  same : ∀ m n, stepIn? measures m n = stepIn? others m n ∨ Continues measures m₀ n₀ m n

variable {m₀ n₀ m n : Nat} {front more : List Measure} {measure other : Measure}

theorem Continues.change (starts : ∀ first ∈ measure.head?, ∃ now ∈ other.head?,
      now.tiesBackward = first.tiesBackward)
    (continues : Continues (front ++ [measure]) m₀ n₀ m n) :
    Continues (front ++ other :: more) m₀ n₀ m n := by
  induction continues with
  | start => exact .start
  | @onward m n whole held next rest _ here last there tied ih =>
    have inside : m + 1 < front.length + 1 := by
      simpa using (List.getElem?_eq_some_iff.1 there).1
    rw [List.getElem?_append_left (by omega)] at here
    rcases Nat.lt_or_eq_of_le (Nat.le_of_lt_succ inside) with early | last'
    · rw [List.getElem?_append_left early] at there
      exact .onward ih (by rwa [List.getElem?_append_left (by omega)]) last
        (by rwa [List.getElem?_append_left early]) tied
    · -- the step is held into the measure that changes
      rw [last', List.getElem?_concat_length] at there
      cases there
      obtain ⟨now, first, same⟩ := starts next rfl
      obtain ⟨rest, rfl⟩ := List.head?_eq_some_iff.1 first
      have there : (front ++ (now :: rest) :: more)[m + 1]? = some (now :: rest) := by simp [last']
      exact .onward ih (by rwa [List.getElem?_append_left (by omega)]) last there
        ⟨tied.1, by rw [same, tied.2]⟩

theorem continues_concat_nil (measures : List Measure) :
    Continues (measures ++ [[]]) m₀ n₀ m n ↔ Continues measures m₀ n₀ m n := by
  constructor
  · intro continues
    induction continues with
    | start => exact .start
    | @onward m n whole held next rest _ here last there tied ih =>
      have inside : m + 1 < measures.length := by
        by_contra beyond
        rcases Nat.eq_or_lt_of_le (Nat.not_lt.1 beyond) with same | beyond
        · rw [← same] at there
          simp at there
        · rw [List.getElem?_eq_none (by simp; omega)] at there
          cases there
      rw [List.getElem?_append_left (by omega)] at here there
      exact .onward ih here last there tied
  · intro continues
    induction continues with
    | start => exact .start
    | onward _ here last there tied ih =>
      have inside := (List.getElem?_eq_some_iff.1 there).1
      exact .onward ih (by rwa [List.getElem?_append_left (by omega)]) last
        (by rwa [List.getElem?_append_left inside]) tied

theorem differFrom_concat_nil {measures others : List Measure} :
    DifferFrom m₀ n₀ (measures ++ [[]]) (others ++ [[]]) ↔ DifferFrom m₀ n₀ measures others := by
  constructor
  · rintro ⟨shapes, same⟩
    refine ⟨by simpa using shapes, fun m n => ?_⟩
    simpa only [stepIn?_concat_nil, continues_concat_nil] using same m n
  · rintro ⟨shapes, same⟩
    refine ⟨by simpa using shapes, fun m n => ?_⟩
    simpa only [stepIn?_concat_nil, continues_concat_nil] using same m n

theorem eq_concat_of_map_eq {α β : Type} {view : α → β} {front items : List α} {last : α}
    (same : (front ++ [last]).map view = items.map view) :
    ∃ front' last', items = front' ++ [last'] ∧ front.map view = front'.map view ∧
      view last = view last' := by
  rw [List.map_append, List.map_singleton] at same
  obtain ⟨front', lasts, rfl, fronts, ends⟩ := List.map_eq_append_iff.1 same.symm
  obtain ⟨last', rfl, finish⟩ := List.map_eq_singleton_iff.1 ends
  exact ⟨front', last', rfl, fronts.symm, finish.symm⟩

section

variable {before before' : List Measure} {steps steps' : Measure} {step step' : Step}

theorem DifferFrom.split (differ : DifferFrom m₀ n₀ (before ++ [steps]) (before' ++ [steps'])) :
    before.map (List.map Step.shape) = before'.map (List.map Step.shape) ∧
      steps.map Step.shape = steps'.map Step.shape := by
  have shapes := differ.shapes
  simp only [List.map_append, List.map_singleton] at shapes
  obtain ⟨fronts, ends⟩ := List.append_inj' shapes rfl
  exact ⟨fronts, by simpa using ends⟩

theorem DifferFrom.lengths (differ : DifferFrom m₀ n₀ (before ++ [steps]) (before' ++ [steps'])) :
    before.length = before'.length ∧ steps.length = steps'.length := by
  obtain ⟨fronts, ends⟩ := differ.split
  exact ⟨by simpa using congrArg List.length fronts, by simpa using congrArg List.length ends⟩

theorem DifferFrom.concat (differ : DifferFrom m₀ n₀ (before ++ [steps]) (before' ++ [steps']))
    (shape : step.shape = step'.shape)
    (here : step = step' ∨
      Continues (before ++ [steps ++ [step]]) m₀ n₀ before.length steps.length) :
    DifferFrom m₀ n₀ (before ++ [steps ++ [step]]) (before' ++ [steps' ++ [step']]) := by
  obtain ⟨fronts, ends⟩ := differ.split
  refine ⟨by simp [fronts, ends, shape], fun m n => ?_⟩
  rw [stepIn?_concat_step, stepIn?_concat_step, ← differ.lengths.1, ← differ.lengths.2]
  split
  next place =>
    rw [place.1, place.2]
    exact here.imp_left fun same => by rw [same]
  next =>
    refine (differ.same m n).imp_right fun continues => continues.change fun first start => ?_
    obtain ⟨rest, rfl⟩ := List.head?_eq_some_iff.1 start
    exact ⟨first, rfl, rfl⟩

theorem DifferFrom.changeLast
    (differ : DifferFrom m₀ n₀ (before ++ [steps ++ [step]]) (before' ++ [steps' ++ [step']]))
    (change : Step → Step) (backward : ∀ s, (change s).tiesBackward = s.tiesBackward)
    (shape : (change step).shape = (change step').shape) :
    DifferFrom m₀ n₀ (before ++ [steps ++ [change step]]) (before' ++ [steps' ++ [change step']]) := by
  obtain ⟨fronts, ends⟩ := differ.split
  obtain ⟨ends, -⟩ : steps.map Step.shape = steps'.map Step.shape ∧ _ := by simpa using ends
  obtain ⟨early, late⟩ := differ.lengths
  have late : steps.length = steps'.length := by simpa using late
  have starts : ∀ first ∈ (steps ++ [step]).head?, ∃ now ∈ (steps ++ [change step]).head?,
      now.tiesBackward = first.tiesBackward := by
    intro first start
    cases steps with
    | nil =>
      obtain rfl : step = first := by simpa using start
      exact ⟨_, rfl, backward step⟩
    | cons head rest => exact ⟨first, start, rfl⟩
  refine ⟨by simp [fronts, ends, shape], fun m n => ?_⟩
  have was := differ.same m n
  rw [stepIn?_concat_step, stepIn?_concat_step, ← early, ← late] at was ⊢
  refine was.imp (fun same => ?_) fun continues => continues.change starts
  split at same
  next place =>
    cases same
    rw [if_pos place, if_pos place]
  next place => rw [if_neg place, if_neg place, same]

end

end Measure

namespace Notation

open ScoreScript.Measure

namespace Bar

structure DifferFrom (m₀ n₀ : Nat) (b other : Bar) : Prop where
  measures : Measure.DifferFrom m₀ n₀ b.measures other.measures
  unit : b.unit = other.unit
  position : b.position = other.position

variable {m₀ n₀ : Nat} {b other : Bar}

theorem differFrom_begin {measures others : List Measure}
    (differ : Measure.DifferFrom m₀ n₀ measures others) :
    DifferFrom m₀ n₀ { earlier := measures } { earlier := others } :=
  ⟨differFrom_concat_nil.2 differ, rfl, rfl⟩

theorem addTie_of_steps {steps : Measure} {last : Step} (filled : b.steps = steps ++ [last])
    (velocity length : Int) : b.addTie velocity length =
      { b with
        position := b.position + length
        steps := steps ++ [{ last with length := last.length + length }] } := by
  simp [addTie, extendLast, filled]

theorem addTie_of_held {before : List Measure} {steps : Measure} {held : Step} (empty : b.steps = [])
    (whole : b.earlier = before ++ [steps ++ [held]]) (velocity length : Int) :
    b.addTie velocity length =
      { b with
        position := b.position + length
        earlier := before ++ [steps ++ [{ held with tiesForward := true }]]
        steps := [continuation held length] } := by
  simp [addTie, heldStep?, empty, whole]

theorem addTie_of_silence (empty : b.steps = []) (nothing : heldStep? b.earlier = none)
    (velocity length : Int) : b.addTie velocity length =
      { b with
        position := b.position + length
        steps := [{ length := length, velocity := velocity }] } := by
  simp [addTie, empty, nothing]

theorem eq_held_of_shapes {measures others before : List Measure} {steps : Measure} {held : Step}
    (shapes : measures.map (List.map Step.shape) = others.map (List.map Step.shape))
    (whole : measures = before ++ [steps ++ [held]]) :
    ∃ before' steps' held', others = before' ++ [steps' ++ [held']] ∧ held.shape = held'.shape := by
  rw [whole] at shapes
  obtain ⟨before', measure, rfl, -, last⟩ := eq_concat_of_map_eq shapes
  obtain ⟨steps', held', rfl, -, shape⟩ := eq_concat_of_map_eq last
  exact ⟨before', steps', held', rfl, shape⟩

theorem heldStep?_eq_none_of_shapes {measures others : List Measure}
    (shapes : measures.map (List.map Step.shape) = others.map (List.map Step.shape))
    (nothing : heldStep? measures = none) : heldStep? others = none := by
  cases found : heldStep? others with
  | none => rfl
  | some pair =>
    obtain ⟨before, steps, held, rfl, -⟩ :=
      eq_held_of_shapes shapes.symm (eq_concat_of_heldStep? found)
    simp [heldStep?] at nothing

theorem differFrom_hold {before before' : List Measure} {steps steps' : Measure} {held held' : Step}
    (differ : Measure.DifferFrom m₀ n₀ (before ++ [steps ++ [held]]) (before' ++ [steps' ++ [held']]))
    (shape : held.shape = held'.shape) (length : Int) :
    Measure.DifferFrom m₀ n₀
      (before ++ [steps ++ [{ held with tiesForward := true }]] ++ [[continuation held length]])
      (before' ++ [steps' ++ [{ held' with tiesForward := true }]] ++
        [[continuation held' length]]) := by
  obtain ⟨-, -, backward⟩ := Step.shape_eq shape
  have tied := differ.changeLast (fun s => { s with tiesForward := true }) (fun _ => rfl)
    (by simp [Step.shape, (Step.shape_eq shape).1, backward])
  refine @DifferFrom.concat _ _ _ _ [] [] _ _ (differFrom_concat_nil.2 tied) rfl ?_
  have was := tied.same before.length steps.length
  rw [stepIn?_concat_step, stepIn?_concat_step, if_pos ⟨rfl, rfl⟩,
    if_pos ⟨tied.lengths.1, by simpa using tied.lengths.2⟩] at was
  rcases was with same | continues
  · left
    change continuation { held with tiesForward := true } length =
      continuation { held' with tiesForward := true } length
    rw [Option.some.inj same]
  · -- the step differs, so what it is held into may differ too
    right
    have longer : Continues (before ++ [steps ++ [{ held with tiesForward := true }]] ++
        [[continuation held length]]) m₀ n₀ before.length steps.length := by
      rw [List.append_assoc]
      exact continues.change fun first start => ⟨first, start, rfl⟩
    have last : (steps ++ [{ held with tiesForward := true }])[steps.length]? =
          some { held with tiesForward := true } ∧
        steps.length + 1 = (steps ++ [{ held with tiesForward := true }]).length := by
      simp
    have onward := longer.onward (by simp) last (by simp : _ = some [continuation held length]) ⟨rfl, rfl⟩
    simpa using onward

theorem DifferFrom.addTie (differ : DifferFrom m₀ n₀ b other) (velocity length : Int) :
    DifferFrom m₀ n₀ (b.addTie velocity length) (other.addTie velocity length) := by
  obtain ⟨measures, unit, position⟩ := differ
  obtain ⟨shapes, ends⟩ := measures.split
  have later : b.position + length = other.position + length := by rw [position]
  rcases List.eq_nil_or_concat' b.steps with empty | ⟨steps, last, filled⟩
  · have empty' : other.steps = [] := by simpa [empty] using ends.symm
    rw [Bar.measures, Bar.measures, empty, empty'] at measures
    cases found : heldStep? b.earlier with
    | none =>
      have nothing := heldStep?_eq_none_of_shapes shapes found
      rw [addTie_of_silence empty found, addTie_of_silence empty' nothing]
      exact ⟨@DifferFrom.concat _ _ _ _ [] [] _ _ measures rfl (.inl rfl), unit, later⟩
    | some pair =>
      have whole := eq_concat_of_heldStep? found
      obtain ⟨before', steps', held', whole', shape⟩ := eq_held_of_shapes shapes whole
      rw [addTie_of_held empty whole, addTie_of_held empty' whole']
      rw [differFrom_concat_nil, whole, whole'] at measures
      exact ⟨differFrom_hold measures shape length, unit, later⟩
  · rw [filled] at ends
    obtain ⟨steps', last', filled', -, shape⟩ := eq_concat_of_map_eq ends
    rw [addTie_of_steps filled, addTie_of_steps filled']
    rw [Bar.measures, Bar.measures, filled, filled'] at measures
    refine ⟨measures.changeLast (fun s => { s with length := s.length + length }) (fun _ => rfl) ?_,
      unit, later⟩
    simpa [Step.shape] using shape

variable (ctx : Context) (chordAt : Nat → Int → Text) (line base : Int)

theorem DifferFrom.addWord (differ : DifferFrom m₀ n₀ b other) (word : Text) :
    DifferFrom m₀ n₀ (b.addWord ctx chordAt line base word)
      (other.addWord ctx chordAt line base word) := by
  unfold Bar.addWord
  dsimp only
  rw [← differ.unit, ← differ.position, ← differ.measures.lengths.1]
  cases Mark.ofWord word with
  | bracket factor => exact ⟨differ.measures, rfl, rfl⟩
  | brace => exact differ
  | tie => exact differ.addTie _ _
  | step =>
    refine ⟨differ.measures.concat rfl (.inl rfl), differ.unit, ?_⟩
    simp [addStep, differ.position]

theorem DifferFrom.addWords (differ : DifferFrom m₀ n₀ b other) (words : List Text) :
    DifferFrom m₀ n₀ (words.foldl (Bar.addWord ctx chordAt line base) b)
      (words.foldl (Bar.addWord ctx chordAt line base) other) := by
  induction words generalizing b other with
  | nil => exact differ
  | cons word rest ih => exact ih (differ.addWord ctx chordAt line base word)

end Bar

variable (ctx : Context) (chordAt : Nat → Int → Text) (line : Int) {m₀ n₀ : Nat}

theorem differFrom_addPhrase {done other : List Measure × List Diagnostic}
    (differ : DifferFrom m₀ n₀ done.1 other.1) (phrase : Text) :
    DifferFrom m₀ n₀ (addPhrase ctx chordAt line done phrase).1
      (addPhrase ctx chordAt line other phrase).1 := by
  unfold addPhrase
  cases Text.words phrase with
  | nil => exact differ
  | cons word rest =>
    exact ((Bar.differFrom_begin differ).addWords ctx chordAt line _ (word :: rest)).measures

theorem differFrom_addPhrases {done other : List Measure × List Diagnostic}
    (differ : DifferFrom m₀ n₀ done.1 other.1) (phrases : List Text) :
    DifferFrom m₀ n₀ (phrases.foldl (addPhrase ctx chordAt line) done).1
      (phrases.foldl (addPhrase ctx chordAt line) other).1 := by
  induction phrases generalizing done other with
  | nil => exact differ
  | cons phrase rest ih => exact ih (differFrom_addPhrase ctx chordAt line differ phrase)

/-! ### One word instead of another -/

def signs : List Text := ["(", ")", "[", "]", "\x7b", "\x7d", "-"]

def IsPlain (word : Text) : Prop := word ∉ signs

instance (word : Text) : Decidable (IsPlain word) := inferInstanceAs (Decidable (word ∉ signs))

structure SameForm (word other : Text) : Prop where
  plain : IsPlain word ∧ IsPlain other
  dotted : isDotted word = isDotted other

theorem ofWord_eq_step {word : Text} : Mark.ofWord word = .step ↔ IsPlain word := by
  unfold Mark.ofWord IsPlain
  split <;> simp_all [signs, Text.of]

theorem ofWord_eq_tie {word : Text} : Mark.ofWord word = .tie ↔ word = tie := by
  unfold Mark.ofWord
  split <;> simp_all [tie, Text.of]

def stepCount : List Text → Nat
  | [] => 0
  | word :: rest =>
    if word = tie ∨ IsPlain word then 1 + rest.countP (IsPlain ·) else stepCount rest

namespace Bar

variable {b : Bar} (base : Int)

theorem length_addTie (velocity length : Int) :
    (b.addTie velocity length).steps.length = max 1 b.steps.length := by
  rcases List.eq_nil_or_concat' b.steps with empty | ⟨steps, last, filled⟩
  · unfold addTie
    dsimp only
    rw [if_neg (by simp [empty]), empty]
    split <;> rfl
  · rw [addTie_of_steps filled, filled]
    simp

theorem length_addWord (word : Text) : (b.addWord ctx chordAt line base word).steps.length =
    if IsPlain word then b.steps.length + 1
    else if word = tie then max 1 b.steps.length else b.steps.length := by
  unfold addWord
  dsimp only
  cases mark : Mark.ofWord word with
  | step => simp [ofWord_eq_step.1 mark, addStep]
  | tie =>
    obtain rfl := ofWord_eq_tie.1 mark
    rw [if_neg (by decide), if_pos rfl]
    exact length_addTie _ _
  | bracket | brace =>
    have sign : ¬IsPlain word := fun plain => by simp [ofWord_eq_step.2 plain] at mark
    have other : word ≠ tie := fun same => by simp [ofWord_eq_tie.2 same] at mark
    rw [if_neg sign, if_neg other]

theorem length_addWords (words : List Text) (begun : 1 ≤ b.steps.length) :
    (words.foldl (addWord ctx chordAt line base) b).steps.length =
      b.steps.length + words.countP (IsPlain ·) := by
  induction words generalizing b with
  | nil => rfl
  | cons word rest ih =>
    have here := length_addWord ctx chordAt line (b := b) base word
    rw [List.foldl_cons, ih (by split_ifs at here <;> omega), here]
    by_cases plain : IsPlain word
    · rw [if_pos plain, List.countP_cons_of_pos (by simpa using plain)]
      omega
    · rw [if_neg plain, List.countP_cons_of_neg (by simpa using plain)]
      split <;> omega

theorem length_addWords_of_empty (words : List Text) (empty : b.steps = []) :
    (words.foldl (addWord ctx chordAt line base) b).steps.length = stepCount words := by
  induction words generalizing b with
  | nil => simp [empty, stepCount]
  | cons word rest ih =>
    have here := length_addWord ctx chordAt line (b := b) base word
    rw [empty, List.length_nil] at here
    rw [List.foldl_cons, stepCount]
    by_cases begins : word = tie ∨ IsPlain word
    · have one : (b.addWord ctx chordAt line base word).steps.length = 1 := by
        rw [here]
        rcases begins with rfl | plain
        · rfl
        · rw [if_pos plain]
      rw [if_pos begins, length_addWords ctx chordAt line base rest (by omega), one]
    · obtain ⟨other, sign⟩ := not_or.1 begins
      rw [if_neg sign, if_neg other] at here
      rw [if_neg begins, ih (List.length_eq_zero_iff.1 here)]

theorem length_earlier_addWords (words : List Text) :
    (words.foldl (addWord ctx chordAt line base) b).earlier.length = b.earlier.length := by
  have lengths := congrArg List.length (durations_foldl ctx chordAt line base words b)
  simpa [measures] using lengths

end Bar

theorem unitsFrom_replace {word other : Text} (form : SameForm word other) (unit : Rat)
    (front back : List Text) :
    unitsFrom unit (front ++ word :: back) = unitsFrom unit (front ++ other :: back) := by
  induction front generalizing unit with
  | nil =>
    simp only [List.nil_append, unitsFrom, ofWord_eq_step.2 form.plain.1, ofWord_eq_step.2 form.plain.2,
      form.dotted]
  | cons first rest ih =>
    simp only [List.cons_append, unitsFrom]
    cases Mark.ofWord first <;> simp only [ih]

theorem shape_stepOf {word other : Text} (form : SameForm word other) (length : Int) (chord : Text) :
    (stepOf ctx word length chord).shape = (stepOf ctx other length chord).shape := by
  simp [Step.shape, stepOf, dottedLength, form.dotted]

theorem differFrom_barOf {word other : Text} (form : SameForm word other) (measures : List Measure)
    (front back : List Text) :
    DifferFrom measures.length (stepCount front)
      (barOf ctx chordAt line measures (front ++ word :: back)).measures
      (barOf ctx chordAt line measures (front ++ other :: back)).measures := by
  have base : unitLength (front ++ other :: back) ctx.budget =
      unitLength (front ++ word :: back) ctx.budget := by
    rw [unitLength, unitLength, unitCount, unitCount, unitsFrom_replace form]
  unfold barOf
  rw [base]
  generalize unitLength (front ++ word :: back) ctx.budget = base
  simp only [List.foldl_append, List.foldl_cons]
  have place := Bar.length_addWords_of_empty ctx chordAt line (b := { earlier := measures }) base front rfl
  have bars := Bar.length_earlier_addWords ctx chordAt line (b := { earlier := measures }) base front
  generalize front.foldl (Bar.addWord ctx chordAt line base) { earlier := measures } = b at place bars
  -- the two runs are the same up to the word, and it adds steps of one shape
  refine (Bar.DifferFrom.addWords ctx chordAt line base ?_ back).measures
  have same : DifferFrom measures.length (stepCount front) b.measures b.measures :=
    ⟨rfl, fun _ _ => .inl rfl⟩
  have shape := shape_stepOf ctx form (plainLength base b.unit) (chordAt b.earlier.length b.position)
  simp only [Bar.addWord, ofWord_eq_step.2 form.plain.1, ofWord_eq_step.2 form.plain.2]
  refine ⟨same.concat shape (.inr ?_), rfl, by simp [Bar.addStep, (Step.shape_eq shape).1]⟩
  rw [place, ← bars]
  exact .start

theorem length_addLine (measures : List Measure) (phrases : List Text) :
    (addLine ctx chordAt line measures phrases).1.length =
      measures.length + (wordRows phrases).length := by
  simpa using congrArg List.length (durations_addLine ctx chordAt line measures phrases)

/-- When a word is replaced by another one of the same form, the line keeps its measures, and all its steps
keep their lengths and their ties. The steps are the same but for that of the word and what it is held
into. -/
theorem addLine_replace {word other phrase phrase' : Text} {front back : List Text}
    (form : SameForm word other) (words : Text.words phrase = front ++ word :: back)
    (words' : Text.words phrase' = front ++ other :: back) (measures : List Measure)
    (before after : List Text) :
    DifferFrom (measures.length + (wordRows before).length) (stepCount front)
      (addLine ctx chordAt line measures (before ++ phrase :: after)).1
      (addLine ctx chordAt line measures (before ++ phrase' :: after)).1 := by
  rw [← length_addLine ctx chordAt line measures before]
  unfold addLine
  simp only [List.foldl_append, List.foldl_cons]
  refine differFrom_addPhrases ctx chordAt line ?_ after
  generalize before.foldl (addPhrase ctx chordAt line) (measures, []) = done
  have bars := differFrom_barOf ctx chordAt line form done.1 front back
  simp only [addPhrase, words, words']
  split <;> split <;> simp_all

theorem addLine_replace_of_misspelt_note : SameForm "2" "x" ∧
    DifferFrom 0 1 (addLine {} (fun _ _ => []) 1 [] ["1 2", "- 3"]).1
      (addLine {} (fun _ _ => []) 1 [] ["1 x", "- 3"]).1 := by
  have form : SameForm "2" "x" := ⟨by decide, by decide⟩
  have words : Text.words "1 2" = ["1"] ++ "2" :: [] := by decide
  have words' : Text.words "1 x" = ["1"] ++ "x" :: [] := by decide
  exact ⟨form, addLine_replace {} (fun _ _ => []) 1 form words words' [] [] ["- 3"]⟩

end Notation

end ScoreScript
