import ScoreScript.Proofs.Filled
import ScoreScript.Proofs.Replacement
import ScoreScript.Proofs.Script

set_option autoImplicit false

/-!
# The current chord

A word of a phrase may ask for the chord that sounds where its step starts. Steps are made longer and are
held after they have been made, but a step is only made when those before it have their final lengths. And
the chord lines of a section are read before all others, so no chord is missed.
-/

namespace ScoreScript

namespace Measure

structure Covers (measure : Measure) (n : Nat) (step : Step) (position : Int) : Prop where
  here : measure[n]? = some step
  started : Measure.duration (measure.take n) ≤ position
  lasting : position < Measure.duration (measure.take n) + step.length

structure IsTextAt (measure : Measure) (position : Int) (text : Text) : Prop where
  covered : ∀ n step, measure.Covers n step position →
    text = step.text ∧ ∀ n' step', measure.Covers n' step' position → n' = n
  silent : (∀ n step, ¬measure.Covers n step position) → text = []

variable {measure : Measure} {first step : Step} {n n' : Nat} {position : Int}

theorem covers_zero : Covers (first :: measure) 0 step position ↔
    first = step ∧ 0 ≤ position ∧ position < first.length := by
  constructor
  · rintro ⟨here, started, lasting⟩
    obtain rfl : first = step := by simpa using here
    simp only [List.take_zero, duration_nil] at started lasting
    exact ⟨rfl, started, by omega⟩
  · rintro ⟨rfl, started, lasting⟩
    exact ⟨rfl, by simpa using started, by simpa using lasting⟩

theorem covers_succ : Covers (first :: measure) (n + 1) step position ↔
    Covers measure n step (position - first.length) := by
  constructor
  · rintro ⟨here, started, lasting⟩
    simp only [List.take_succ_cons, duration_cons] at started lasting
    exact ⟨here, by omega, by omega⟩
  · rintro ⟨here, started, lasting⟩
    refine ⟨here, ?_, ?_⟩ <;> simp only [List.take_succ_cons, duration_cons] <;> omega

theorem Covers.nonneg (long : ∀ step ∈ measure, 0 ≤ step.length) (covers : Covers measure n step position) :
    0 ≤ position := by
  have before : 0 ≤ Measure.duration (measure.take n) :=
    duration_nonneg fun step member => long step (List.mem_of_mem_take member)
  have := covers.started
  omega

theorem stepAt?_eq_some (long : ∀ step ∈ measure, 0 ≤ step.length) :
    measure.stepAt? position = some step ↔ ∃ n, Covers measure n step position := by
  induction measure generalizing position with
  | nil =>
    constructor
    · rintro ⟨⟩
    · rintro ⟨n, here, -⟩
      simp at here
  | cons first rest ih =>
    obtain ⟨-, longRest⟩ := List.forall_mem_cons.1 long
    rw [stepAt?]
    split
    next inside =>
      constructor
      · rintro ⟨⟩
        exact ⟨0, covers_zero.2 ⟨rfl, inside⟩⟩
      · rintro ⟨_ | n, covers⟩
        · rw [(covers_zero.1 covers).1]
        · -- a later step would have to start before this one ends
          have := (covers_succ.1 covers).nonneg longRest
          omega
    next outside =>
      rw [ih longRest]
      constructor
      · rintro ⟨n, covers⟩
        exact ⟨n + 1, covers_succ.2 covers⟩
      · rintro ⟨_ | n, covers⟩
        · exact absurd (covers_zero.1 covers).2 outside
        · exact ⟨n, covers_succ.1 covers⟩

theorem Covers.unique {step' : Step} (long : ∀ step ∈ measure, 0 ≤ step.length)
    (covers : Covers measure n step position) (other : Covers measure n' step' position) : n' = n := by
  induction measure generalizing n n' position with
  | nil => exact absurd covers.here (by simp)
  | cons first rest ih =>
    obtain ⟨-, longRest⟩ := List.forall_mem_cons.1 long
    cases n with
    | zero =>
      cases n' with
      | zero => rfl
      | succ n' =>
        have := (covers_succ.1 other).nonneg longRest
        have := (covers_zero.1 covers).2
        omega
    | succ n =>
      cases n' with
      | zero =>
        have := (covers_succ.1 covers).nonneg longRest
        have := (covers_zero.1 other).2
        omega
      | succ n' => rw [ih longRest (covers_succ.1 covers) (covers_succ.1 other)]

theorem isTextAt_stepAt? (long : ∀ step ∈ measure, 0 ≤ step.length) (position : Int) :
    IsTextAt measure position (((measure.stepAt? position).map Step.text).getD []) where
  covered n step covers := by
    rw [(stepAt?_eq_some long).2 ⟨n, covers⟩]
    exact ⟨rfl, fun n' step' other => covers.unique long other⟩
  silent none := by
    cases found : measure.stepAt? position with
    | none => rfl
    | some step =>
      obtain ⟨n, covers⟩ := (stepAt?_eq_some long).1 found
      exact absurd covers (none n step)

/-! ### Steps that have been made -/

/-- Whether a measure goes on after some steps with one that has been made. It may have been made longer
since, and held over the bar. -/
def GoesOnWith (measure before : Measure) (made : Step) : Prop :=
  ∃ length tied after, measure = before ++ { made with length := length, tiesForward := tied } :: after

variable {before steps : Measure} {made last : Step}

theorem GoesOnWith.append (goesOn : measure.GoesOnWith before made) (more : Measure) :
    GoesOnWith (measure ++ more) before made := by
  obtain ⟨length, tied, after, rfl⟩ := goesOn
  exact ⟨length, tied, after ++ more, by simp⟩

theorem GoesOnWith.changeLast (goesOn : GoesOnWith (steps ++ [last]) before made) (length : Int)
    (tied : Bool) :
    GoesOnWith (steps ++ [{ last with length := length, tiesForward := tied }]) before made := by
  obtain ⟨length', tied', after, whole⟩ := goesOn
  rcases List.eq_nil_or_concat' after with rfl | ⟨front, final, rfl⟩
  · obtain ⟨rfl, only⟩ := List.append_inj' whole rfl
    obtain rfl := List.singleton_inj.1 only
    exact ⟨length, tied, [], rfl⟩
  · rw [← List.cons_append, ← List.append_assoc] at whole
    obtain ⟨rfl, only⟩ := List.append_inj' whole rfl
    exact ⟨length', tied', front ++ [{ last with length := length, tiesForward := tied }], by simp⟩

end Measure

namespace Notation

open ScoreScript.Measure

theorem Retied.length {measures after : List Measure} (retied : Retied measures after) :
    after.length = measures.length := by
  cases retied with
  | same => rfl
  | held => simp

theorem Retied.goesOn {measures after : List Measure} (retied : Retied measures after) {m : Nat}
    {measure : Measure} (here : measures[m]? = some measure) :
    ∃ now, after[m]? = some now ∧ now.length = measure.length ∧
      ∀ before made, measure.GoesOnWith before made → now.GoesOnWith before made := by
  cases retied with
  | same => exact ⟨measure, here, rfl, fun _ _ goesOn => goesOn⟩
  | held front steps last =>
    rcases Nat.lt_or_ge m front.length with early | late
    · rw [List.getElem?_append_left early] at here ⊢
      exact ⟨measure, here, rfl, fun _ _ goesOn => goesOn⟩
    · obtain rfl : m = front.length := by
        have := (List.getElem?_eq_some_iff.1 here).1
        simp only [List.length_append, List.length_singleton] at this
        omega
      rw [List.getElem?_concat_length] at here
      cases here
      exact ⟨_, List.getElem?_concat_length, by simp, fun _ _ goesOn => goesOn.changeLast last.length true⟩

def IsSpelt (ctx : Context) (chordAt : Int → Text) (n : Nat) (word : Text) (measure : Measure) : Prop :=
  ∃ before length, before.length = n ∧
    measure.GoesOnWith before (stepOf ctx word length (chordAt (Measure.duration before)))

structure Spells (ctx : Context) (chordAt : Int → Text) (words : List Text) (measure : Measure) : Prop where
  count : measure.length = stepCount words
  spelt : ∀ front word back, words = front ++ word :: back → IsPlain word →
    IsSpelt ctx chordAt (stepCount front) word measure

def Reads (ctx : Context) (chordAt : Nat → Int → Text) (m : Nat) (words : List Text)
    (measures : List Measure) : Prop :=
  ∃ measure, measures[m]? = some measure ∧ Spells ctx (chordAt m) words measure

namespace Bar

variable {ctx : Context} {b : Bar} {earlier earlier' : List Measure} {steps steps' before : Measure}
  {made : Step}

theorem Move.goesOn (move : Move ctx earlier steps earlier' steps') (goesOn : steps.GoesOnWith before made) :
    steps'.GoesOnWith before made := by
  cases move with
  | none => exact goesOn
  | longer _ front last => exact goesOn.changeLast _ last.tiesForward
  | tied | silent =>
    obtain ⟨length, tied, after, empty⟩ := goesOn
    simp at empty
  | step => exact goesOn.append _

variable (chordAt : Nat → Int → Text) (line base : Int)

theorem goesOn_addWords (words : List Text) (goesOn : b.steps.GoesOnWith before made) :
    (words.foldl (addWord ctx chordAt line base) b).steps.GoesOnWith before made :=
  List.foldlRecOn (motive := fun (b : Bar) => b.steps.GoesOnWith before made) words _ goesOn
    fun b goesOn word _ => (addWord_move ctx chordAt line base b word).goesOn goesOn

theorem position_addWord (word : Text) (placed : b.position = b.steps.duration) :
    (b.addWord ctx chordAt line base word).position =
      (b.addWord ctx chordAt line base word).steps.duration := by
  unfold addWord
  dsimp only
  cases Mark.ofWord word with
  | bracket factor => exact placed
  | brace => exact placed
  | tie =>
    have position (length : Int) : (b.addTie ctx.velocity length).position = b.position + length := by
      unfold addTie
      dsimp only
      split_ifs
      · rfl
      · split <;> rfl
    rw [position, (durations_addTie b _ _).2, placed]
  | step => simp [addStep, placed]

theorem position_addWords (words : List Text) (placed : b.position = b.steps.duration) :
    (words.foldl (addWord ctx chordAt line base) b).position =
      (words.foldl (addWord ctx chordAt line base) b).steps.duration :=
  List.foldlRecOn (motive := fun (b : Bar) => b.position = b.steps.duration) words _ placed
    fun _ placed word _ => position_addWord chordAt line base word placed

end Bar

variable {ctx : Context} {chordAt : Nat → Int → Text} {measures : List Measure} {words : List Text} {m : Nat}

theorem spells_barOf (ctx : Context) (chordAt : Nat → Int → Text) (line : Int) (measures : List Measure)
    (words : List Text) :
    Spells ctx (chordAt measures.length) words (barOf ctx chordAt line measures words).steps := by
  refine ⟨Bar.length_addWords_of_empty ctx chordAt line _ words rfl, ?_⟩
  intro front word back split plain
  unfold barOf
  generalize unitLength words ctx.budget = base
  rw [split, List.foldl_append, List.foldl_cons]
  -- when the word is reached, the steps before its own have their final lengths
  have count := Bar.length_addWords_of_empty ctx chordAt line (b := { earlier := measures }) base front rfl
  have bars := Bar.length_earlier_addWords ctx chordAt line (b := { earlier := measures }) base front
  have placed : (front.foldl (Bar.addWord ctx chordAt line base) { earlier := measures }).position = _ :=
    Bar.position_addWords chordAt line base front rfl
  generalize front.foldl (Bar.addWord ctx chordAt line base) { earlier := measures } = b at count bars placed
  refine ⟨b.steps, plainLength base b.unit, count, Bar.goesOn_addWords chordAt line base back ?_⟩
  simp only [Bar.addWord, ofWord_eq_step.2 plain, Bar.addStep, bars, placed]
  exact ⟨_, _, [], rfl⟩

theorem Reads.retied {after : List Measure} (retied : Retied measures after)
    (reads : Reads ctx chordAt m words measures) : Reads ctx chordAt m words after := by
  obtain ⟨measure, here, count, spelt⟩ := reads
  obtain ⟨now, there, same, goesOn⟩ := retied.goesOn here
  refine ⟨now, there, same.trans count, fun front word back split plain => ?_⟩
  obtain ⟨before, length, number, made⟩ := spelt front word back split plain
  exact ⟨before, length, number, goesOn _ _ made⟩

def IsStable (holds : List Measure → Prop) : Prop :=
  ∀ ctx chordAt line measures words, holds measures → holds (barOf ctx chordAt line measures words).measures

theorem row_addLine {holds : Nat → List Text → List Measure → Prop}
    (stable : ∀ m words, IsStable (holds m words)) (ctx : Context) (chordAt : Nat → Int → Text) (line : Int)
    (made : ∀ measures words, holds measures.length words (barOf ctx chordAt line measures words).measures)
    (phrases : List Text) (measures : List Measure) {i : Nat} (row : (wordRows phrases)[i]? = some words) :
    holds (measures.length + i) words (addLine ctx chordAt line measures phrases).1 := by
  induction phrases generalizing measures i with
  | nil => cases row
  | cons phrase rest ih =>
    rw [← List.singleton_append, addLine_append]
    cases found : Text.words phrase with
    | nil =>
      have blank : (addLine ctx chordAt line measures [phrase]).1 = measures := by
        simp [addLine, addPhrase, found]
      rw [blank]
      exact ih measures (by simpa [wordRows, found] using row)
    | cons first others =>
      have here : (addLine ctx chordAt line measures [phrase]).1 =
          (barOf ctx chordAt line measures (first :: others)).measures := by
        simp [addLine, addPhrase, found]
      have rows : wordRows (phrase :: rest) = (first :: others) :: wordRows rest := by
        simp [wordRows, found]
      rw [rows] at row
      rw [here]
      cases i with
      | zero =>
        cases row
        exact addLine_invariant ctx chordAt line _ (stable _ _ ctx chordAt line) _ rest (made measures _)
      | succ i =>
        have bars := (retied_barOf ctx chordAt line measures (first :: others)).length
        have later := ih (barOf ctx chordAt line measures (first :: others)).measures row
        rw [Bar.measures, List.length_append, bars, Nat.add_assoc, Nat.add_comm _ i] at later
        exact later

theorem isStable_reads (ctx : Context) (chordAt : Nat → Int → Text) (m : Nat) (words : List Text) :
    IsStable (Reads ctx chordAt m words) := by
  intro ctx' chordAt' line measures more reads
  obtain ⟨measure, here, spells⟩ := reads.retied (retied_barOf ctx' chordAt' line measures more)
  have inside := (List.getElem?_eq_some_iff.1 here).1
  exact ⟨measure, by rwa [Bar.measures, List.getElem?_append_left inside], spells⟩

theorem reads_addLine (ctx : Context) (chordAt : Nat → Int → Text) (line : Int) (phrases : List Text)
    (measures : List Measure) {i : Nat} (row : (wordRows phrases)[i]? = some words) :
    Reads ctx chordAt (measures.length + i) words (addLine ctx chordAt line measures phrases).1 := by
  refine row_addLine (isStable_reads ctx chordAt) ctx chordAt line (fun measures words => ?_) phrases measures
    row
  have bars := (retied_barOf ctx chordAt line measures words).length
  refine ⟨_, ?_, spells_barOf ctx chordAt line measures words⟩
  rw [Bar.measures, ← bars, List.getElem?_concat_length]

end Notation

/-! ### Sections -/

namespace MusicalSection

theorem chordAt_insert (s : MusicalSection) {name : Text} (other : name ≠ chordInstrument)
    (measures : List Measure) :
    ({ s with measures := s.measures.insert name measures } : MusicalSection).chordAt = s.chordAt := by
  funext m position
  simp only [chordAt, measuresOf_insert, if_neg other.symm]

end MusicalSection

namespace Score

open MusicalSection Notation

variable (c : Score) (stepVelocity : Int) (depth : Nat)

theorem chordAt_readMusicLine (done : MusicalSection × List Diagnostic) {line : Script.Line}
    (other : line.key ≠ chordInstrument) :
    (readMusicLine c stepVelocity depth done line).1.chordAt = done.1.chordAt :=
  chordAt_insert _ other _

theorem chordAt_foldl_readMusicLine (done : MusicalSection × List Diagnostic) {lines : List Script.Line}
    (others : ∀ line ∈ lines, line.key ≠ chordInstrument) :
    (lines.foldl (readMusicLine c stepVelocity depth) done).1.chordAt = done.1.chordAt :=
  List.foldlRecOn (motive := fun (now : MusicalSection × List Diagnostic) => now.1.chordAt = done.1.chordAt)
    lines _ rfl fun now same line member =>
      (chordAt_readMusicLine c stepVelocity depth now (others line member)).trans same

theorem stable_foldl_readMusicLine {holds : List Measure → Prop} (stable : IsStable holds) {instrument : Text}
    (lines : List Script.Line) (done : MusicalSection × List Diagnostic)
    (held : holds (done.1.measuresOf instrument)) :
    holds ((lines.foldl (readMusicLine c stepVelocity depth) done).1.measuresOf instrument) := by
  refine List.foldlRecOn (motive := fun (now : MusicalSection × List Diagnostic) =>
    holds (now.1.measuresOf instrument)) lines _ held fun now held line _ => ?_
  rw [readMusicLine, measuresOf_insert]
  split
  next same =>
    subst same
    exact addLine_invariant _ _ _ holds (stable _ _ _) _ _ held
  next => exact held

theorem readMusicLines_split {s : Script.Section} {front back : List Script.Line} {line : Script.Line}
    (lines : s.lines = front ++ line :: back) (plays : line.key ≠ chordInstrument) :
    readMusicLines c stepVelocity depth s =
      (back.filter (·.key ≠ chordInstrument)).foldl (readMusicLine c stepVelocity depth)
        (readMusicLine c stepVelocity depth (readMusicLines c stepVelocity depth
          { s with lines := front ++ back.filter (·.key = chordInstrument) }) line) := by
  simp [readMusicLines, Script.Section.moveFirst, lines, plays, List.filter_filter]

theorem isKept_long (ctx : Context) : Bar.IsKept ctx fun s => 1 ≤ s.length where
  made word chord length := by
    rw [stepOf, Step.Draft.finish_length]
    omega
  silent length positive := positive
  longer s length positive long := by
    dsimp only
    omega
  held s long := long
  continued s length positive _ := positive

theorem long_readMusicLines (s : Script.Section) :
    (readMusicLines c stepVelocity depth s).1.AllSteps fun step => 1 ≤ step.length :=
  allSteps_readMusicLines (fun _ => isKept_long (contextOf c _)) depth s

theorem isTextAt_chordAt (s : Script.Section) (m : Nat) (position : Int) :
    Measure.IsTextAt
      (((readMusicLines c stepVelocity depth s).1.measuresOf chordInstrument)[m]?.getD []) position
      ((readMusicLines c stepVelocity depth s).1.chordAt m position) := by
  have long (measure : Measure)
      (member : measure ∈ (readMusicLines c stepVelocity depth s).1.measuresOf chordInstrument)
      (step : Step) (inside : step ∈ measure) : 0 ≤ step.length :=
    Int.le_of_lt (long_readMusicLines c stepVelocity depth s chordInstrument measure member step inside)
  rw [chordAt]
  split
  next none =>
    rw [none]
    exact Measure.isTextAt_stepAt? (by simp) position
  next measure found =>
    rw [found]
    exact Measure.isTextAt_stepAt? (long measure (List.mem_of_getElem? found)) position

theorem reads_line_then_others (done : MusicalSection × List Diagnostic) {line : Script.Line}
    {others : List Script.Line} (plays : ∀ other ∈ line :: others, other.key ≠ chordInstrument) {i : Nat}
    {words : List Text}
    (row : (wordRows (Phrase.ofLine c.sequences done.1.length depth line.number line.value).1)[i]? =
      some words) :
    let finished := (others.foldl (readMusicLine c stepVelocity depth)
      (readMusicLine c stepVelocity depth done line)).1
    Reads (contextOf c (instrumentOf c stepVelocity line.key)) finished.chordAt
      ((done.1.measuresOf line.key).length + i) words (finished.measuresOf line.key) := by
  -- the chords are known, and only lines of other instruments come
  have chords := chordAt_foldl_readMusicLine c stepVelocity depth done plays
  rw [List.foldl_cons] at chords
  dsimp only
  rw [chords]
  apply stable_foldl_readMusicLine c stepVelocity depth (isStable_reads _ _ _ _)
  rw [readMusicLine, measuresOf_insert, if_pos rfl]
  exact reads_addLine _ _ _ _ _ row

/-- Every word of an instrument line is read for the chord that the finished section has where the step of
the word starts in the end. That chord is the text of the only step of the chord line that sounds there. -/
theorem words_read_for_their_chords {s : Script.Section} {front back : List Script.Line}
    {line : Script.Line} (lines : s.lines = front ++ line :: back) (plays : line.key ≠ chordInstrument) :
    let finished := (readMusicLines c stepVelocity depth s).1
    let before := (readMusicLines c stepVelocity depth
      { s with lines := front ++ back.filter (·.key = chordInstrument) }).1
    let rows := wordRows (Phrase.ofLine c.sequences before.length depth line.number line.value).1
    (∀ i words, rows[i]? = some words →
      Reads (contextOf c (instrumentOf c stepVelocity line.key)) finished.chordAt
        ((before.measuresOf line.key).length + i) words (finished.measuresOf line.key)) ∧
    ∀ m position, Measure.IsTextAt ((finished.measuresOf chordInstrument)[m]?.getD []) position
      (finished.chordAt m position) := by
  have others : ∀ other ∈ line :: back.filter (·.key ≠ chordInstrument), other.key ≠ chordInstrument := by
    simp [plays]
  refine ⟨fun i words row => ?_, isTextAt_chordAt c stepVelocity depth s⟩
  rw [readMusicLines_split c stepVelocity depth lines plays]
  exact reads_line_then_others c stepVelocity depth _ others row

def onePiano : Score := { instruments := [{ name := "piano", octave := 3 }] }

def lateChords : Script.Section :=
  { name := "a"
    number := 1
    lines := [⟨"piano", "1- 2", 2⟩, ⟨"piano", "- root", 3⟩, ⟨"chord", "C F | G Am", 4⟩] }

theorem words_read_for_their_chords_of_late_chords :
    lateChords.lines =
        [⟨"piano", "1- 2", 2⟩] ++ ⟨"piano", "- root", 3⟩ :: [⟨"chord", "C F | G Am", 4⟩] ∧
      Text.of "piano" ≠ chordInstrument ∧
      ∃ measure, ((readMusicLines onePiano 80 8 lateChords).1.measuresOf "piano")[1]? = some measure ∧
        IsSpelt (contextOf onePiano (instrumentOf onePiano 80 "piano"))
          ((readMusicLines onePiano 80 8 lateChords).1.chordAt 1) 1 "root" measure := by
  have lines : lateChords.lines =
      [⟨"piano", "1- 2", 2⟩] ++ ⟨"piano", "- root", 3⟩ :: [⟨"chord", "C F | G Am", 4⟩] := rfl
  have plays : Text.of "piano" ≠ chordInstrument := by decide
  obtain ⟨reads, -⟩ := words_read_for_their_chords onePiano 80 8 lines plays
  obtain ⟨measure, here, spells⟩ := reads 0 ["-", "root"] (by decide +kernel)
  have spelt := spells.spelt ["-"] "root" [] rfl (by decide)
  exact ⟨lines, plays, measure, here, spelt⟩

end Score

end ScoreScript
