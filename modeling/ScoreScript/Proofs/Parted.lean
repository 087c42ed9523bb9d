import ScoreScript.Proofs.CurrentChord
import ScoreScript.Proofs.Joined
import ScoreScript.Proofs.Renumbered

set_option autoImplicit false

namespace ScoreScript

namespace Table

variable {α : Type}

theorem insert_insert (table : Table α) (name : Text) (old value : α) :
    (table.insert name old).insert name value = table.insert name value := by
  induction table with
  | nil => simp [insert]
  | cons entry rest ih =>
    obtain ⟨key, first⟩ := entry
    by_cases same : name = key
    · simp [insert, same]
    · simp [insert, same, ih]

end Table

namespace Notation

variable {ctx : Context} {chordAt chordAt' : Nat → Int → Text}

def SameSteps (ctx : Context) (chordAt chordAt' : Nat → Int → Text) : Prop :=
  ∀ word length m position,
    stepOf ctx word length (chordAt m position) = stepOf ctx word length (chordAt' m position)

theorem SameSteps.refl (ctx : Context) (chordAt : Nat → Int → Text) : SameSteps ctx chordAt chordAt :=
  fun _ _ _ _ => rfl

structure Bar.SameMusic (b other : Bar) : Prop where
  earlier : b.earlier = other.earlier
  steps : b.steps = other.steps
  unit : b.unit = other.unit
  position : b.position = other.position

theorem Bar.SameMusic.addWord {b other : Bar} (same : b.SameMusic other)
    (chords : SameSteps ctx chordAt chordAt')
    (line line' base : Int) (word : Text) : (b.addWord ctx chordAt line base word).SameMusic
      (other.addWord ctx chordAt' line' base word) := by
  obtain ⟨earlier, steps, unit, position, reports⟩ := b
  obtain ⟨rfl, rfl, rfl, rfl⟩ := same
  unfold Bar.addWord
  dsimp only
  cases Mark.ofWord word with
  | bracket factor => exact ⟨rfl, rfl, rfl, rfl⟩
  | brace => exact ⟨rfl, rfl, rfl, rfl⟩
  | tie =>
    unfold Bar.addTie
    dsimp only
    split_ifs
    · exact ⟨rfl, rfl, rfl, rfl⟩
    · split <;> exact ⟨rfl, rfl, rfl, rfl⟩
  | step =>
    dsimp only
    rw [chords]
    exact ⟨rfl, rfl, rfl, rfl⟩

theorem barOf_congr
    (chords : SameSteps ctx chordAt chordAt')
    (line line' : Int) (measures : List Measure) (words : List Text) :
    (barOf ctx chordAt line measures words).measures =
      (barOf ctx chordAt' line' measures words).measures := by
  have same : (barOf ctx chordAt line measures words).SameMusic (barOf ctx chordAt' line' measures words) :=
    List.foldl_rel ⟨rfl, rfl, rfl, rfl⟩ fun word _ _ _ same => same.addWord chords line line' _ word
  rw [Bar.measures, Bar.measures, same.earlier, same.steps]

def addRows (ctx : Context) (chordAt : Nat → Int → Text) (measures : List Measure)
    (rows : List (List Text)) : List Measure :=
  rows.foldl (fun measures words => (barOf ctx chordAt 0 measures words).measures) measures

theorem addRows_append (ctx : Context) (chordAt : Nat → Int → Text) (measures : List Measure)
    (rows rows' : List (List Text)) : addRows ctx chordAt measures (rows ++ rows') =
      addRows ctx chordAt (addRows ctx chordAt measures rows) rows' :=
  List.foldl_append

theorem addLine_eq (ctx : Context) (chordAt : Nat → Int → Text) (line : Int) (measures : List Measure)
    (phrases : List Text) :
    (addLine ctx chordAt line measures phrases).1 = addRows ctx chordAt measures (wordRows phrases) := by
  induction phrases generalizing measures with
  | nil => rfl
  | cons phrase rest ih =>
    rw [← List.singleton_append, addLine_append, ih, wordRows_append, addRows_append]
    congr 1
    cases found : Text.words phrase with
    | nil => simp [addLine, addPhrase, wordRows, addRows, found]
    | cons word others =>
      have here := barOf_congr (.refl ctx chordAt) line 0 measures (word :: others)
      simpa [addLine, addPhrase, wordRows, addRows, found] using here

theorem addRows_congr
    (chords : SameSteps ctx chordAt chordAt')
    (measures : List Measure) (rows : List (List Text)) :
    addRows ctx chordAt measures rows = addRows ctx chordAt' measures rows := by
  unfold addRows
  congr 1
  funext measures words
  exact barOf_congr chords 0 0 measures words

theorem sameSteps_of_not_synth (other : ctx.category ≠ .synth) (chordAt chordAt' : Nat → Int → Text) :
    SameSteps ctx chordAt chordAt' := by
  intro word length m position
  rw [stepOf, stepOf, draftOf_of_not_synth other]

end Notation

namespace Script

inductive Parted (key first second : Text) : List Line → List Line → Prop where
  | nil : Parted key first second [] []
  | keep (other value : Text) (n n' : Nat) {lines lines' : List Line}
    (rest : Parted key first second lines lines') :
    Parted key first second (⟨other, value, n⟩ :: lines) (⟨other, value, n'⟩ :: lines')
  | part (n n' n'' : Nat) {lines lines' : List Line} (rest : Parted key first second lines lines') :
    Parted key first second (⟨key, Text.trim (first ++ Phrase.barBetween ++ second), n⟩ :: lines)
      (⟨key, Text.trim first, n'⟩ :: ⟨key, Text.trim second, n''⟩ :: lines')

variable {key first second : Text} {lines lines' more more' : List Line}

theorem Parted.append (parted : Parted key first second lines lines')
    (parted' : Parted key first second more more') :
    Parted key first second (lines ++ more) (lines' ++ more') := by
  induction parted with
  | nil => exact parted'
  | keep other value n n' _ ih => exact .keep other value n n' ih
  | part n n' n'' _ ih => exact .part n n' n'' ih

theorem Parted.of_same (same : List.Forall₂ Line.Same lines lines') :
    Parted key first second lines lines' := by
  induction same with
  | nil => exact .nil
  | @cons line line' _ _ here _ ih =>
    obtain ⟨other, value, n⟩ := line
    obtain ⟨rfl, rfl⟩ := here
    exact .keep line'.key line'.value n line'.number ih

theorem Parted.filter_key (keeps : Text → Bool) (parted : Parted key first second lines lines') :
    Parted key first second (lines.filter (keeps ·.key)) (lines'.filter (keeps ·.key)) := by
  induction parted with
  | nil => exact .nil
  | keep other value n n' _ ih =>
    simp only [List.filter_cons]
    split
    · exact .keep other value n n' ih
    · exact ih
  | part n n' n'' _ ih =>
    simp only [List.filter_cons]
    split
    · exact .part n n' n'' ih
    · exact ih

end Script

namespace Score

open MusicalSection Notation Phrase Script

variable {c : Score} {stepVelocity : Int} {depth : Nat} {key first second : Text}

theorem category_chordInstrument (c : Score) (stepVelocity : Int) :
    (contextOf c (instrumentOf c stepVelocity chordInstrument)).category ≠ .synth := by
  have named : (instrumentOf c stepVelocity chordInstrument).name = chordInstrument := by
    unfold instrumentOf instrument?
    cases found : c.instruments.find? (·.name = chordInstrument) with
    | none => rfl
    | some i => simpa using List.find?_some found
  have chords : Text.hasWord "chord" chordInstrument = true := by decide
  change (instrumentOf c stepVelocity chordInstrument).category ≠ .synth
  rw [Instrument.category, named, if_pos chords]
  split_ifs <;> decide

theorem sameSteps_insert (c : Score) (stepVelocity : Int) (s : MusicalSection) (key : Text)
    (measures : List Measure) : SameSteps (contextOf c (instrumentOf c stepVelocity key))
      ({ s with measures := s.measures.insert key measures } : MusicalSection).chordAt s.chordAt := by
  by_cases own : key = chordInstrument
  · subst own
    exact sameSteps_of_not_synth (category_chordInstrument c stepVelocity) _ _
  · rw [chordAt_insert s own]
    exact .refl _ _

theorem wordRows_ofLine_line (sequences : Table Text) (count : Int) (depth : Nat) (line line' : Int)
    (value : Text) : wordRows (ofLine sequences count depth line value).1 =
      wordRows (ofLine sequences count depth line' value).1 := by
  rw [wordRows_ofLine, wordRows_ofLine, repeatFrom_line count line line']

theorem readMusicLine_eq (c : Score) (stepVelocity : Int) (depth : Nat)
    (done : MusicalSection × List Diagnostic) (line : Line) :
    (readMusicLine c stepVelocity depth done line).1 = { done.1 with
      measures := done.1.measures.insert line.key (addRows
        (contextOf c (instrumentOf c stepVelocity line.key)) done.1.chordAt (done.1.measuresOf line.key)
        (wordRows (ofLine c.sequences done.1.length depth 0 line.value).1)) } := by
  rw [wordRows_ofLine_line c.sequences _ depth 0 line.number, ← addLine_eq _ _ line.number]
  rfl

theorem readMusicLine_congr {done done' : MusicalSection × List Diagnostic} (music : done.1 = done'.1)
    {line line' : Line} (same : line.Same line') :
    (readMusicLine c stepVelocity depth done line).1 = (readMusicLine c stepVelocity depth done' line').1 := by
  rw [readMusicLine_eq, readMusicLine_eq, music, same.key, same.value]

theorem readMusicLine_parted (present : Text.trim first ≠ []) (present' : Text.trim second ≠ [])
    (parts : Parts c.sequences depth first second) {done done' : MusicalSection × List Diagnostic}
    (music : done.1 = done'.1) (n n' n'' : Nat) :
    (readMusicLine c stepVelocity depth done ⟨key, Text.trim (first ++ barBetween ++ second), n⟩).1 =
      (readMusicLine c stepVelocity depth
        (readMusicLine c stepVelocity depth done' ⟨key, Text.trim first, n'⟩)
        ⟨key, Text.trim second, n''⟩).1 := by
  rw [readMusicLine_eq, readMusicLine_eq, music]
  simp only [readMusicLine_eq c stepVelocity depth done' ⟨key, Text.trim first, n'⟩]
  rw [measuresOf_insert, if_pos rfl, Table.insert_insert]
  -- the second line knows the same chords, or does not ask for them
  rw [addRows_congr (sameSteps_insert c stepVelocity done'.1 key _), ← addRows_append]
  rw [wordRows_joined present present' parts]

theorem foldl_readMusicLine_parted (present : Text.trim first ≠ []) (present' : Text.trim second ≠ [])
    (parts : Parts c.sequences depth first second) {lines lines' : List Line}
    (parted : Parted key first second lines lines') {done done' : MusicalSection × List Diagnostic}
    (music : done.1 = done'.1) : (lines.foldl (readMusicLine c stepVelocity depth) done).1 =
      (lines'.foldl (readMusicLine c stepVelocity depth) done').1 := by
  induction parted generalizing done done' with
  | nil => exact music
  | keep other value n n' _ ih => exact ih (readMusicLine_congr music ⟨rfl, rfl⟩)
  | part n n' n'' _ ih => exact ih (readMusicLine_parted present present' parts music n n' n'')

theorem readMusicLines_parted (present : Text.trim first ≠ []) (present' : Text.trim second ≠ [])
    (parts : Parts c.sequences depth first second) {s s' : Section} (named : s.name = s'.name)
    (parted : Parted key first second s.lines s'.lines) :
    (readMusicLines c stepVelocity depth s).1 = (readMusicLines c stepVelocity depth s').1 := by
  have chords := parted.filter_key fun key => key = chordInstrument
  have others := parted.filter_key fun key => key ≠ chordInstrument
  refine foldl_readMusicLine_parted present present' parts (chords.append others) ?_
  simp only [named]

end Score

end ScoreScript
