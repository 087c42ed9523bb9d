import ScoreScript.Notation.Line
import ScoreScript.Proofs.Tie
import ScoreScript.Proofs.Word

set_option autoImplicit false

namespace ScoreScript.Notation

open ScoreScript.Measure

/-- The measures before and after the last step is held over the bar. -/
inductive Retied : List Measure → List Measure → Prop where
  | same (measures : List Measure) : Retied measures measures
  | held (before : List Measure) (steps : Measure) (last : Step) :
    Retied (before ++ [steps ++ [last]]) (before ++ [steps ++ [{ last with tiesForward := true }]])

theorem Retied.split {first second after : List Measure} (present : second ≠ [])
    (retied : Retied (first ++ second) after) :
    ∃ changed, after = first ++ changed ∧ Retied second changed := by
  generalize whole : first ++ second = measures at retied
  cases retied with
  | same => exact ⟨second, whole.symm, .same second⟩
  | held before steps last =>
    rcases List.eq_nil_or_concat' second with rfl | ⟨front, measure, rfl⟩
    · exact absurd rfl present
    · rw [← List.append_assoc] at whole
      obtain ⟨rfl, only⟩ := List.append_inj' whole rfl
      obtain rfl : measure = steps ++ [last] := by simpa using only
      exact ⟨_, List.append_assoc .., .held front steps last⟩

namespace Bar

inductive Move (ctx : Context) : List Measure → Measure → List Measure → Measure → Prop where
  | none (earlier : List Measure) (steps : Measure) : Move ctx earlier steps earlier steps
  | longer (earlier : List Measure) (steps : Measure) (last : Step) {length : Int}
    (positive : 1 ≤ length) :
    Move ctx earlier (steps ++ [last]) earlier
      (steps ++ [{ last with length := last.length + length }])
  | tied (before : List Measure) (steps : Measure) (held : Step) {length : Int}
    (positive : 1 ≤ length) :
    Move ctx (before ++ [steps ++ [held]]) []
      (before ++ [steps ++ [{ held with tiesForward := true }]]) [continuation held length]
  | silent (earlier : List Measure) {length : Int} (positive : 1 ≤ length) :
    Move ctx earlier [] earlier [{ length := length, velocity := ctx.velocity }]
  | step (earlier : List Measure) (steps : Measure) (word chord : Text) (length : Int) :
    Move ctx earlier steps earlier (steps ++ [stepOf ctx word length chord])

theorem eq_concat_of_heldStep? {measures : List Measure} {steps : Measure} {held : Step}
    (found : heldStep? measures = some (steps, held)) :
    measures = measures.dropLast ++ [steps ++ [held]] := by
  unfold heldStep? at found
  split at found
  · cases found
  next measure last =>
    obtain ⟨step, lastStep, pair⟩ := Option.map_eq_some_iff.1 found
    cases pair
    rw [List.dropLast_append_getLast? _ lastStep, List.dropLast_append_getLast? _ last]

theorem addTie_move (ctx : Context) (b : Bar) {length : Int} (positive : 1 ≤ length) :
    Move ctx b.earlier b.steps (b.addTie ctx.velocity length).earlier
      (b.addTie ctx.velocity length).steps := by
  unfold addTie
  dsimp only
  -- the tie goes on in the bar, over the bar, or from nothing
  rcases List.eq_nil_or_concat' b.steps with empty | ⟨steps, last, filled⟩
  · rw [if_neg (by simp [empty]), empty]
    split
    next steps held found =>
      rw [eq_concat_of_heldStep? found, List.dropLast_concat]
      exact .tied _ steps held positive
    next => exact .silent _ positive
  · rw [if_pos (by simp [filled])]
    have longer : extendLast b.steps length =
        steps ++ [{ last with length := last.length + length }] := by
      simp [extendLast, filled]
    rw [longer, filled]
    exact .longer _ steps last positive

theorem one_le_plainLength (base : Int) (unit : Rat) : 1 ≤ plainLength base unit := by
  unfold plainLength
  omega

theorem addWord_move (ctx : Context) (chordAt : Nat → Int → Text) (line base : Int) (b : Bar)
    (word : Text) :
    Move ctx b.earlier b.steps (b.addWord ctx chordAt line base word).earlier
      (b.addWord ctx chordAt line base word).steps := by
  unfold addWord
  dsimp only
  split
  · exact .none ..
  · exact .none ..
  · exact addTie_move ctx b (one_le_plainLength ..)
  · exact .step ..

variable {α : Type} {view : Step → α} {ctx : Context} {earlier earlier' : List Measure}
  {steps steps' : Measure}

theorem ties_longer (ignores : Step.IgnoresTies view) (steps : Measure) (last : Step) (length : Int) :
    ties view (steps ++ [{ last with length }]) = ties view (steps ++ [last]) := by
  have same : view { last with length } = view last := ignores last _ _ _ _
  simp [ties, same]

theorem Move.wellTied (ignores : Step.IgnoresTies view) (move : Move ctx earlier steps earlier' steps')
    (tied : WellTied view (earlier ++ [steps])) : WellTied view (earlier' ++ [steps']) := by
  cases move with
  | none => exact tied
  | @longer _ front last length _ =>
    obtain ⟨before, inner, joined, finish⟩ := wellTied_concat.1 tied
    have same := Retouched.of_ties (ties_longer ignores front last (last.length + length))
    exact wellTied_concat.2
      ⟨before, same.ends inner, joined.trans same.taken.symm, same.handed.trans finish⟩
  | tied before front held _ =>
    exact (wellTied_concat_nil.1 tied).hold (ignores held _ _ _ _) (ignores held _ _ _ _) rfl rfl
  | silent => exact tied.concat_step rfl rfl
  | step => exact tied.concat_step (by simp [stepOf]) (by simp [stepOf])

theorem Move.one_le_length (move : Move ctx earlier steps earlier' steps')
    (long : ∀ step ∈ steps, 1 ≤ step.length) : ∀ step ∈ steps', 1 ≤ step.length := by
  intro step member
  cases move with
  | none => exact long step member
  | longer _ front last more =>
    rcases List.mem_append.1 member with inFront | only
    · exact long step (by simp [inFront])
    · obtain rfl := List.mem_singleton.1 only
      have := long last (by simp)
      dsimp only
      omega
  | tied _ _ held positive =>
    obtain rfl := List.mem_singleton.1 member
    exact positive
  | silent _ positive =>
    obtain rfl := List.mem_singleton.1 member
    exact positive
  | step =>
    rcases List.mem_append.1 member with inFront | only
    · exact long step inFront
    · obtain rfl := List.mem_singleton.1 only
      simp only [stepOf, Step.Draft.finish_length]
      omega

theorem Move.retied {measures : List Measure} (move : Move ctx earlier steps earlier' steps')
    (before : earlier = measures ∨ steps ≠ [] ∧ Retied measures earlier) :
    earlier' = measures ∨ steps' ≠ [] ∧ Retied measures earlier' := by
  cases move with
  | none => exact before
  | longer => exact before.imp_right fun h => ⟨by simp, h.2⟩
  | silent => exact before.imp_right fun h => absurd rfl h.1
  | step => exact before.imp_right fun h => ⟨by simp, h.2⟩
  | tied front last held =>
    -- the bar has not begun yet, so its measures before are still the old ones
    rcases before with rfl | ⟨begun, -⟩
    · exact .inr ⟨by simp, .held front last held⟩
    · exact absurd rfl begun

structure IsKept (ctx : Context) (keeps : Step → Prop) : Prop where
  made : ∀ word chord length, keeps (stepOf ctx word length chord)
  silent : ∀ length, 1 ≤ length → keeps { length := length, velocity := ctx.velocity }
  longer : ∀ (s : Step) length, 1 ≤ length → keeps s → keeps { s with length := s.length + length }
  held : ∀ s : Step, keeps s → keeps { s with tiesForward := true }
  continued : ∀ s length, 1 ≤ length → keeps s → keeps (continuation s length)

theorem Move.forall_steps {keeps : Step → Prop} (kept : IsKept ctx keeps)
    (move : Move ctx earlier steps earlier' steps')
    (before : ∀ measure ∈ earlier ++ [steps], ∀ step ∈ measure, keeps step) :
    ∀ measure ∈ earlier' ++ [steps'], ∀ step ∈ measure, keeps step := by
  simp only [List.forall_mem_append, List.forall_mem_singleton] at before ⊢
  obtain ⟨old, here⟩ := before
  cases move with
  | none => exact ⟨old, here⟩
  | longer _ front last positive =>
    simp only [List.forall_mem_append, List.forall_mem_singleton] at here ⊢
    exact ⟨old, here.1, kept.longer last _ positive here.2⟩
  | tied front start last positive =>
    simp only [List.forall_mem_append, List.forall_mem_singleton] at old ⊢
    obtain ⟨first, rest, whole⟩ := old
    exact ⟨⟨first, rest, kept.held last whole⟩, kept.continued last _ positive whole⟩
  | silent _ positive => exact ⟨old, by simpa using kept.silent _ positive⟩
  | step _ _ word chord length =>
    simp only [List.forall_mem_append, List.forall_mem_singleton]
    exact ⟨old, here, kept.made word chord length⟩

theorem barOf_invariant (keeps : List Measure → Measure → Prop)
    (moves : ∀ {earlier steps earlier' steps'}, Move ctx earlier steps earlier' steps' →
      keeps earlier steps → keeps earlier' steps')
    (chordAt : Nat → Int → Text) (line : Int) (measures : List Measure) (words : List Text)
    (start : keeps measures []) :
    keeps (barOf ctx chordAt line measures words).earlier
      (barOf ctx chordAt line measures words).steps := by
  have fold (b : Bar) (held : keeps b.earlier b.steps) :
      keeps (words.foldl (addWord ctx chordAt line (unitLength words ctx.budget)) b).earlier
        (words.foldl (addWord ctx chordAt line (unitLength words ctx.budget)) b).steps := by
    generalize unitLength words ctx.budget = base
    induction words generalizing b with
    | nil => exact held
    | cons word rest ih => exact ih _ (moves (addWord_move ctx chordAt line base b word) held)
  exact fold _ start

end Bar

open Bar

variable {α : Type} {view : Step → α} (ctx : Context) (chordAt : Nat → Int → Text) (line : Int)

theorem addPhrase_cases (done : List Measure × List Diagnostic) (phrase : Text) :
    (addPhrase ctx chordAt line done phrase).1 = done.1 ∨
      ∃ words, (addPhrase ctx chordAt line done phrase).1 =
        (barOf ctx chordAt line done.1 words).measures := by
  unfold addPhrase
  cases Text.words phrase with
  | nil => exact .inl rfl
  | cons word rest => exact .inr ⟨word :: rest, rfl⟩

theorem addLine_invariant (keeps : List Measure → Prop)
    (bars : ∀ measures words, keeps measures → keeps (barOf ctx chordAt line measures words).measures)
    (measures : List Measure) (phrases : List Text) (start : keeps measures) :
    keeps (addLine ctx chordAt line measures phrases).1 := by
  have fold (done : List Measure × List Diagnostic) (held : keeps done.1) :
      keeps (phrases.foldl (addPhrase ctx chordAt line) done).1 := by
    induction phrases generalizing done with
    | nil => exact held
    | cons phrase rest ih =>
      refine ih _ ?_
      rcases addPhrase_cases ctx chordAt line done phrase with same | ⟨words, more⟩
      · rwa [same]
      · rw [more]
        exact bars _ words held
  exact fold _ start

theorem foldl_addPhrase (done : List Measure × List Diagnostic) (phrases : List Text) :
    (phrases.foldl (addPhrase ctx chordAt line) done).1 = (addLine ctx chordAt line done.1 phrases).1 := by
  induction phrases generalizing done with
  | nil => rfl
  | cons phrase rest ih =>
    have here : (addPhrase ctx chordAt line done phrase).1 =
        (addPhrase ctx chordAt line (done.1, []) phrase).1 := by
      unfold addPhrase
      split <;> rfl
    rw [List.foldl_cons, ih, here]
    exact (ih _).symm

theorem addLine_append (measures : List Measure) (first second : List Text) :
    (addLine ctx chordAt line measures (first ++ second)).1 =
      (addLine ctx chordAt line (addLine ctx chordAt line measures first).1 second).1 := by
  rw [addLine, List.foldl_append, foldl_addPhrase]
  rfl

theorem wellTied_barOf (ignores : Step.IgnoresTies view) {measures : List Measure} (words : List Text)
    (tied : WellTied view measures) :
    WellTied view (barOf ctx chordAt line measures words).measures :=
  barOf_invariant (fun earlier steps => WellTied view (earlier ++ [steps]))
    (fun move => move.wellTied ignores) chordAt line measures words (wellTied_concat_nil.2 tied)

theorem wellTied_addLine (ignores : Step.IgnoresTies view) {measures : List Measure}
    (phrases : List Text) (tied : WellTied view measures) :
    WellTied view (addLine ctx chordAt line measures phrases).1 :=
  addLine_invariant ctx chordAt line (WellTied view)
    (fun _ words => wellTied_barOf ctx chordAt line ignores words) measures phrases tied

theorem forall_addLine {keeps : Step → Prop} (kept : IsKept ctx keeps) {measures : List Measure}
    (phrases : List Text) (before : ∀ measure ∈ measures, ∀ step ∈ measure, keeps step) :
    ∀ measure ∈ (addLine ctx chordAt line measures phrases).1, ∀ step ∈ measure, keeps step := by
  refine addLine_invariant ctx chordAt line
    (fun measures => ∀ measure ∈ measures, ∀ step ∈ measure, keeps step)
    (fun current words whole => ?_) measures phrases before
  refine barOf_invariant (fun earlier steps => ∀ measure ∈ earlier ++ [steps], ∀ step ∈ measure, keeps step)
    (fun move => move.forall_steps kept) chordAt line current words ?_
  simpa [or_imp, forall_and] using whole

def LongSteps (measures : List Measure) : Prop :=
  ∀ measure ∈ measures, ∀ step ∈ measure, 1 ≤ step.length

theorem LongSteps.retied {before after : List Measure} (retied : Retied before after)
    (long : LongSteps before) : LongSteps after := by
  cases retied with
  | same => exact long
  | held front steps last =>
    simp only [LongSteps, List.forall_mem_append, List.forall_mem_singleton] at long ⊢
    exact long

def Extends (measures after : List Measure) : Prop :=
  after = measures ∨ ∃ kept added, after = kept ++ added ∧ added ≠ [] ∧ Retied measures kept ∧
    LongSteps added

theorem Extends.concat {measures current earlier : List Measure} {steps : Measure}
    (before : Extends measures current) (retied : Retied current earlier)
    (long : ∀ step ∈ steps, 1 ≤ step.length) : Extends measures (earlier ++ [steps]) := by
  rcases before with rfl | ⟨kept, added, rfl, present, held, longAdded⟩
  · exact .inr ⟨earlier, [steps], rfl, by simp, retied, by simpa [LongSteps] using long⟩
  · -- what is held now is a new step, not one of the old measures
    obtain ⟨changed, rfl, more⟩ := retied.split present
    refine .inr ⟨kept, changed ++ [steps], List.append_assoc .., by simp, held, ?_⟩
    have longChanged := longAdded.retied more
    simp only [LongSteps, List.forall_mem_append, List.forall_mem_singleton]
    exact ⟨longChanged, long⟩

theorem retied_barOf (measures : List Measure) (words : List Text) :
    Retied measures (barOf ctx chordAt line measures words).earlier := by
  have kept := @barOf_invariant ctx
    (fun earlier steps => earlier = measures ∨ steps ≠ [] ∧ Retied measures earlier)
    (fun move => move.retied) chordAt line measures words (.inl rfl)
  rcases kept with same | ⟨-, held⟩
  · rw [same]
    exact .same measures
  · exact held

theorem extends_barOf {measures current : List Measure} (words : List Text)
    (before : Extends measures current) :
    Extends measures (barOf ctx chordAt line current words).measures :=
  before.concat (retied_barOf ctx chordAt line current words)
    (barOf_invariant (fun _ steps => ∀ step ∈ steps, 1 ≤ step.length)
      (fun move => move.one_le_length) chordAt line current words (by simp))

theorem extends_addLine (measures : List Measure) (phrases : List Text) :
    Extends measures (addLine ctx chordAt line measures phrases).1 :=
  addLine_invariant ctx chordAt line (Extends measures)
    (fun _ words => extends_barOf ctx chordAt line words) measures phrases (.inl rfl)

/-- Ties stay well-formed over a line. The measures before it stay as they are, but that their last
step may be held over the bar, and every new step has a length. -/
theorem addLine_keeps_ties {measures : List Measure} (phrases : List Text)
    (tied : WellTied Step.essence measures) :
    WellTied Step.essence (addLine ctx chordAt line measures phrases).1 ∧
      ∃ kept added, (addLine ctx chordAt line measures phrases).1 = kept ++ added ∧
        Retied measures kept ∧ ∀ measure ∈ added, ∀ step ∈ measure, 1 ≤ step.length := by
  refine ⟨wellTied_addLine ctx chordAt line Step.essence_ignoresTies phrases tied, ?_⟩
  rcases extends_addLine ctx chordAt line measures phrases with
    same | ⟨kept, added, whole, -, held, long⟩
  · exact ⟨measures, [], by simpa using same, .same measures, by simp⟩
  · exact ⟨kept, added, whole, held, long⟩

theorem addLine_keeps_ties_of_held_note :
    WellTied Step.essence [[{ kind := .synth, pitches := [60], length := 48 }]] ∧
      WellTied Step.essence (addLine {} (fun _ _ => []) 1
        [[{ kind := .synth, pitches := [60], length := 48 }]] ["-", "- b", "(", "- b"]).1 := by
  have tied : WellTied Step.essence [[{ kind := .synth, pitches := [60], length := 48 }]] :=
    by decide
  exact ⟨tied, (addLine_keeps_ties {} (fun _ _ => []) 1 ["-", "- b", "(", "- b"] tied).1⟩

end ScoreScript.Notation
