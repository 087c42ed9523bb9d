import ScoreScript.Proofs.Ascent
import ScoreScript.Proofs.CoveredBar
import ScoreScript.Proofs.PhraseWords

set_option autoImplicit false

namespace ScoreScript

open Text

def Diagnostic.Kind.place : Diagnostic.Kind → Int
  | .noteTooLow => 0
  | .noteTooHigh => 15
  | _ => 2

namespace Step

def report? (line : Int) (s : Step) : Option Diagnostic :=
  if s.tiesBackward then none else s.error.map fun kind => ⟨kind, s.text, line⟩

structure ShowsErrorsOf (word : Text) (s : Step) : Prop where
  fresh : s.tiesBackward = false
  pitches : s.error.isSome → s.pitches = [-1]
  places : ∀ kind, s.error = some kind → s.staffPlaces = [kind.place]
  text : s.error.isSome → s.text = Notation.undotted word

def begun (s : Step) : Step := { s with length := 1, tiesForward := false }

theorem showsErrorsOf_begun {word : Text} {s : Step} :
    ShowsErrorsOf word s.begun ↔ ShowsErrorsOf word s :=
  ⟨fun ⟨fresh, pitches, places, text⟩ => ⟨fresh, pitches, places, text⟩,
    fun ⟨fresh, pitches, places, text⟩ => ⟨fresh, pitches, places, text⟩⟩

namespace Draft

theorem mark_text (d : Draft) (word : Text) : (d.mark word).text = word := by
  unfold mark
  dsimp only
  split <;> rfl

theorem mark_places {d : Draft} {word : Text} {kind : Diagnostic.Kind}
    (failed : (d.mark word).error = some kind) : (d.mark word).staffPlaces = [kind.place] := by
  unfold mark at failed ⊢
  dsimp only at failed ⊢
  split at failed
  next low =>
    obtain rfl : Diagnostic.Kind.noteTooLow = kind := by simpa [low] using failed
    rw [low]
    rfl
  next high =>
    obtain rfl : Diagnostic.Kind.noteTooHigh = kind := by simpa [high] using failed
    rw [high]
    rfl
  next misspelt =>
    cases failed
    dsimp only
    split <;> rfl
  next notLow notHigh _ =>
    have other : kind.place = 2 := by
      cases kind with
      | noteTooLow => exact absurd failed notLow
      | noteTooHigh => exact absurd failed notHigh
      | _ => rfl
    rw [other]
    rfl

end Draft

end Step

namespace Notation

open Step

variable (ctx : Context) (chordAt : Nat → Int → Text) (line : Int)

theorem showsErrorsOf_stepOf {word : Text} (solid : word.IsSolid) (length : Int) (chord : Text) :
    ShowsErrorsOf word (stepOf ctx word length chord) := by
  have whole := (isSolid_undotted solid).trim_eq
  unfold stepOf draftOf
  generalize ((undotted word).splitOn (.char '/')).foldl (addPartText ctx chord) {} = d
  rw [Draft.markIfError]
  split
  next failed =>
    have marked : (d.mark (undotted word)).error ≠ none := by
      rw [ne_eq, Draft.error_mark]
      exact Option.isSome_iff_ne_none.1 failed
    constructor
    · simp
    · intro _
      simp [Draft.finish, marked, Draft.mark_pitches, Draft.errorPitch]
    · intro kind error
      rw [Draft.finish_error] at error
      simp [Draft.finish, marked, Draft.mark_places error]
    · intro _
      simp [Draft.finish_text, Draft.mark_text, whole]
  next clean =>
    have clean : d.error = none := by simpa using clean
    constructor <;> simp [clean]

/-- Whether a measure has a step for each of some words that shows the errors of the word, and in front of
them at most one step, which goes on with what sounded before or is silent. -/
def HasStepsOf (words : List Text) (measure : Measure) : Prop :=
  ∃ opening made, measure = opening ++ made ∧ opening.length ≤ 1 ∧
    (∀ step ∈ opening, step.tiesBackward = true ∨ step.error = none) ∧
    List.Forall₂ ShowsErrorsOf words made

theorem hasStepsOf_begun {words : List Text} {measure : Measure} :
    HasStepsOf words (measure.map begun) ↔ HasStepsOf words measure := by
  have views (made : Measure) :
      List.Forall₂ ShowsErrorsOf words (made.map begun) ↔ List.Forall₂ ShowsErrorsOf words made := by
    simp [List.forall₂_map_right_iff, showsErrorsOf_begun]
  constructor
  · intro ⟨_, _, whole, few, opens, shows⟩
    obtain ⟨opening, made, rfl, rfl, rfl⟩ := List.map_eq_append_iff.1 whole
    exact ⟨opening, made, rfl, by simpa using few, by simpa [begun] using opens, (views _).1 shows⟩
  · intro ⟨opening, made, whole, few, opens, shows⟩
    exact ⟨opening.map begun, made.map begun, by simp [whole], by simpa using few,
      by simpa [begun] using opens, (views _).2 shows⟩

theorem HasStepsOf.eq_nil {words : List Text} (steps : HasStepsOf words []) : words = [] := by
  obtain ⟨opening, made, whole, -, -, shows⟩ := steps
  obtain ⟨rfl, rfl⟩ := List.append_eq_nil_iff.1 whole.symm
  exact List.forall₂_nil_right_iff.1 shows

theorem hasStepsOf_singleton {step : Step} (quiet : step.tiesBackward = true ∨ step.error = none) :
    HasStepsOf [] [step] :=
  ⟨[step], [], rfl, le_rfl, by simpa using quiet, .nil⟩

theorem HasStepsOf.concat {words : List Text} {measure : Measure} (steps : HasStepsOf words measure)
    {word : Text} {step : Step} (shows : ShowsErrorsOf word step) :
    HasStepsOf (words ++ [word]) (measure ++ [step]) := by
  obtain ⟨opening, made, rfl, few, opens, before⟩ := steps
  exact ⟨opening, made ++ [step], by simp, few, opens, List.rel_append before (.cons shows .nil)⟩

structure IsReported (words : List Text) (b : Bar) : Prop where
  steps : HasStepsOf words (b.steps.map begun)
  reports : b.reports = (b.steps.map begun).filterMap (report? line)

theorem isReported_addTie {words : List Text} {b : Bar} (reported : IsReported line words b)
    (velocity length : Int) : IsReported line words (b.addTie velocity length) := by
  obtain ⟨made, reports⟩ := reported
  rcases List.eq_nil_or_concat' b.steps with empty | ⟨steps, last, filled⟩
  · rw [empty] at made reports
    obtain rfl := made.eq_nil
    cases found : Bar.heldStep? b.earlier with
    | none =>
      rw [Bar.addTie_of_silence empty found]
      exact ⟨hasStepsOf_singleton (.inr rfl), reports⟩
    | some pair =>
      rw [Bar.addTie_of_held empty (Bar.eq_concat_of_heldStep? found)]
      exact ⟨hasStepsOf_singleton (.inl rfl), reports⟩
  -- the step that goes on may be reported already, and only its length changes
  · have same : (steps ++ [{ last with length := last.length + length }]).map begun = b.steps.map begun := by
      simp [filled, begun]
    rw [Bar.addTie_of_steps filled]
    exact ⟨same ▸ made, same ▸ reports⟩

theorem isReported_addStep {words : List Text} {b : Bar} (reported : IsReported line words b) {word : Text}
    {step : Step} (shows : ShowsErrorsOf word step) :
    IsReported line (words ++ [word]) (b.addStep step line) := by
  obtain ⟨steps, reports⟩ := reported
  have here : Bar.reportOf step line = [step.begun].filterMap (report? line) := by
    have fresh := shows.fresh
    cases failed : step.error <;> simp [Bar.reportOf, report?, begun, failed, fresh]
  constructor
  · simpa [Bar.addStep] using steps.concat (showsErrorsOf_begun.2 shows)
  · simp only [Bar.addStep, List.map_append, List.filterMap_append, ← reports]
    exact congrArg _ here

theorem isReported_addWord (base : Int) {words : List Text} {b : Bar}
    (reported : IsReported line (words.filter (IsPlain ·)) b) {word : Text} (solid : word.IsSolid) :
    IsReported line ((words ++ [word]).filter (IsPlain ·)) (b.addWord ctx chordAt line base word) := by
  unfold Bar.addWord
  dsimp only
  by_cases plain : IsPlain word
  · simpa [ofWord_eq_step.2 plain, plain] using
      isReported_addStep line reported (showsErrorsOf_stepOf ctx solid _ _)
  · have same : (words ++ [word]).filter (IsPlain ·) = words.filter (IsPlain ·) := by simp [plain]
    rw [same]
    cases mark : Mark.ofWord word with
    | bracket factor => exact ⟨reported.steps, reported.reports⟩
    | brace => exact reported
    | tie => exact isReported_addTie line reported _ _
    | step => exact absurd (ofWord_eq_step.1 mark) plain

theorem isReported_barOf (measures : List Measure) {words : List Text}
    (solid : ∀ word ∈ words, word.IsSolid) :
    IsReported line (words.filter (IsPlain ·)) (barOf ctx chordAt line measures words) := by
  have run (base : Int) (before : List Text) (solid : ∀ word ∈ before, word.IsSolid) :
      IsReported line (before.filter (IsPlain ·))
        (before.foldl (Bar.addWord ctx chordAt line base) { earlier := measures }) := by
    induction before using List.reverseRecOn with
    | nil => exact ⟨⟨[], [], rfl, by simp, by simp, .nil⟩, rfl⟩
    | append_singleton before word ih =>
      obtain ⟨others, here⟩ := List.forall_mem_append.1 solid
      rw [List.foldl_append]
      exact isReported_addWord ctx chordAt line base (ih others) (here word (by simp))
  exact run _ words solid

theorem Retied.begun {measures after : List Measure} (retied : Retied measures after) :
    after.map (List.map Step.begun) = measures.map (List.map Step.begun) := by
  cases retied with
  | same => rfl
  | held => simp [Step.begun]

structure AreReported (rows : List (List Text)) (added : List Measure) (reports : List Diagnostic) : Prop where
  rows : List.Forall₂ (fun words measure => HasStepsOf (words.filter (IsPlain ·)) measure) rows added
  reports : reports = added.flatten.filterMap (report? line)

variable {rows : List (List Text)} {reports : List Diagnostic}

theorem areReported_begun {added : List Measure} :
    AreReported line rows (added.map (List.map begun)) reports ↔ AreReported line rows added reports := by
  have same : (added.map (List.map begun)).flatten.filterMap (report? line) =
      added.flatten.filterMap (report? line) := by
    rw [← List.map_flatten, List.filterMap_map]
    rfl
  have measures : List.Forall₂ (fun words measure => HasStepsOf (words.filter (IsPlain ·)) measure) rows
        (added.map (List.map begun)) ↔
      List.Forall₂ (fun words measure => HasStepsOf (words.filter (IsPlain ·)) measure) rows added := by
    simp [List.forall₂_map_right_iff, hasStepsOf_begun]
  exact ⟨fun ⟨shows, all⟩ => ⟨measures.1 shows, all.trans same⟩,
    fun ⟨shows, all⟩ => ⟨measures.2 shows, all.trans same.symm⟩⟩

theorem areReported_addPhrase {done : List Measure × List Diagnostic} {count : Nat}
    (before : count ≤ done.1.length) (reported : AreReported line rows (done.1.drop count) done.2)
    (phrase : Text) :
    let after := addPhrase ctx chordAt line done phrase
    count ≤ after.1.length ∧ AreReported line (rows ++ wordRows [phrase]) (after.1.drop count) after.2 := by
  unfold addPhrase
  cases found : Text.words phrase with
  | nil => simpa [wordRows, found] using ⟨before, reported⟩
  | cons word others =>
    have solid : ∀ one ∈ word :: others, one.IsSolid := fun one member =>
      isSolid_of_mem_words (found ▸ member)
    have here := isReported_barOf ctx chordAt line done.1 solid
    have retied := retied_barOf ctx chordAt line done.1 (word :: others)
    have only : wordRows [phrase] = [word :: others] := by simp [wordRows, found]
    rw [only]
    dsimp only
    generalize barOf ctx chordAt line done.1 (word :: others) = b at here retied
    have bars : b.earlier.length = done.1.length := retied.length
    -- a dash at the start may have tied the last step before the bar
    have earlier : (b.earlier.drop count).map (List.map begun) = (done.1.drop count).map (List.map begun) := by
      rw [List.map_drop, List.map_drop, retied.begun]
    obtain ⟨shows, all⟩ := (areReported_begun line).2 reported
    refine ⟨by simp [Bar.measures]; omega, (areReported_begun line).1 ?_⟩
    rw [Bar.measures, List.drop_append_of_le_length (by omega), List.map_append, earlier]
    constructor
    · exact List.rel_append shows (.cons here.steps .nil)
    · simp [all, here.reports]

/-- The reports on a line are those on its new steps, one for each that has an error and does not only go on
with another one. Such a step is the one of a word and shows that word and a mark. -/
theorem errors_reported_once (measures : List Measure) (phrases : List Text) :
    let done := addLine ctx chordAt line measures phrases
    let added := done.1.drop measures.length
    done.2 = added.flatten.filterMap (report? line) ∧
      List.Forall₂ (fun words measure => HasStepsOf (words.filter (IsPlain ·)) measure) (wordRows phrases)
        added := by
  have run : measures.length ≤ (addLine ctx chordAt line measures phrases).1.length ∧
      AreReported line (wordRows phrases) ((addLine ctx chordAt line measures phrases).1.drop measures.length)
        (addLine ctx chordAt line measures phrases).2 := by
    induction phrases using List.reverseRecOn with
    | nil => exact ⟨le_rfl, by simp [addLine, wordRows], by simp [addLine]⟩
    | append_singleton phrases phrase ih =>
      rw [addLine, List.foldl_append, wordRows_append]
      exact areReported_addPhrase ctx chordAt line ih.1 ih.2 phrase
  exact ⟨run.2.reports, run.2.rows⟩

end Notation

end ScoreScript
