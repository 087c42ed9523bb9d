import ScoreScript.Proofs.Controlled
import ScoreScript.Proofs.Parted

set_option autoImplicit false

namespace ScoreScript

namespace Phrase

theorem repeatFrom_count (count count' line : Int) (done : List Text) {phrases : List Text}
    (calm : ∀ p ∈ phrases, name p ≠ repeatCycle) :
    repeatFrom count line done phrases = repeatFrom count' line done phrases := by
  induction phrases generalizing done with
  | nil => rfl
  | cons p rest ih =>
    obtain ⟨here, later⟩ := List.forall_mem_cons.1 calm
    rw [repeatFrom, repeatFrom, if_neg here, if_neg here]
    split <;> exact ih _ later

theorem ofLine_count (sequences : Table Text) (count count' : Int) (depth : Nat) (line : Int) (value : Text)
    (calm : ∀ p ∈ (expandSequences sequences depth line (split value)).1, name p ≠ repeatCycle) :
    ofLine sequences count depth line value = ofLine sequences count' depth line value := by
  simp only [ofLine, expandRepetitions, repeatFrom_count count count' line [] calm]

end Phrase

structure Script.Line.IsIndependent (sequences : Table Text) (depth : Nat) (line : Script.Line) : Prop where
  key : line.key ≠ MusicalSection.chordInstrument
  calm : ∀ p ∈ (Phrase.expandSequences sequences depth line.number (Phrase.split line.value)).1,
    Phrase.name p ≠ Phrase.repeatCycle

instance (sequences : Table Text) (depth : Nat) (line : Script.Line) :
    Decidable (line.IsIndependent sequences depth) :=
  decidable_of_iff (_ ∧ _) ⟨fun both => ⟨both.1, both.2⟩, fun line => ⟨line.key, line.calm⟩⟩

namespace MusicalSection

structure PlaysAs (s other : MusicalSection) : Prop where
  name : s.name = other.name
  measures : ∀ instrument, s.measuresOf instrument = other.measuresOf instrument
  length : s.length = other.length

variable {s other third : MusicalSection}

theorem PlaysAs.refl (s : MusicalSection) : s.PlaysAs s := ⟨rfl, fun _ => rfl, rfl⟩

theorem PlaysAs.trans (first : s.PlaysAs other) (second : other.PlaysAs third) : s.PlaysAs third :=
  ⟨first.name.trans second.name, fun i => (first.measures i).trans (second.measures i),
    first.length.trans second.length⟩

theorem PlaysAs.chordAt (alike : s.PlaysAs other) : s.chordAt = other.chordAt := by
  funext m position
  simp only [MusicalSection.chordAt, alike.measures]

theorem length_insert (s : MusicalSection) (name : Text) (measures : List Measure)
    (grows : (s.measuresOf name).length ≤ measures.length) :
    ({ s with measures := s.measures.insert name measures } : MusicalSection).length =
      max s.length measures.length := by
  refine Table.foldr_max_insert s.measures List.length name measures fun old found => ?_
  rwa [measuresOf, Option.mem_def.1 found] at grows

theorem PlaysAs.insert (alike : s.PlaysAs other) (name : Text) {measures : List Measure}
    (grows : (s.measuresOf name).length ≤ measures.length) :
    PlaysAs { s with measures := s.measures.insert name measures }
      { other with measures := other.measures.insert name measures } where
  name := alike.name
  measures instrument := by
    rw [measuresOf_insert, measuresOf_insert, alike.measures]
  length := by
    rw [length_insert s name measures grows, length_insert other name measures (alike.measures name ▸ grows),
      alike.length]

theorem playsAs_insert_comm (s : MusicalSection) {first second : Text} (apart : first ≠ second)
    {measures later : List Measure} (grows : (s.measuresOf first).length ≤ measures.length)
    (grows' : (s.measuresOf second).length ≤ later.length) :
    PlaysAs { s with measures := (s.measures.insert first measures).insert second later }
      { s with measures := (s.measures.insert second later).insert first measures } where
  name := rfl
  measures instrument := by
    have one := measuresOf_insert { s with measures := s.measures.insert first measures } second instrument later
    have other := measuresOf_insert { s with measures := s.measures.insert second later } first instrument
      measures
    rw [one, other, measuresOf_insert, measuresOf_insert]
    by_cases here : instrument = first
    · rw [if_pos here, if_neg (here ▸ apart), if_pos here]
    · rw [if_neg here, if_neg here]
  length := by
    have one := length_insert { s with measures := s.measures.insert first measures } second later
      (by rwa [measuresOf_insert, if_neg apart.symm])
    have other := length_insert { s with measures := s.measures.insert second later } first measures
      (by rwa [measuresOf_insert, if_neg apart])
    rw [one, other, length_insert s first measures grows, length_insert s second later grows']
    omega

end MusicalSection

namespace Score

open MusicalSection Notation Phrase Script

variable {c : Score} {stepVelocity : Int} {depth : Nat} {s other : MusicalSection}

def addedBy (c : Score) (stepVelocity : Int) (depth : Nat) (s : MusicalSection) (line : Line) :
    List Measure × List Diagnostic :=
  let (phrases, phraseReports) := ofLine c.sequences s.length depth line.number line.value
  let (measures, stepReports) := addLine (contextOf c (instrumentOf c stepVelocity line.key)) s.chordAt
    line.number (s.measuresOf line.key) phrases
  (measures, phraseReports ++ stepReports)

theorem readMusicLine_eq_addedBy (done : MusicalSection × List Diagnostic) (line : Line) :
    readMusicLine c stepVelocity depth done line =
      ({ done.1 with
          measures := done.1.measures.insert line.key (addedBy c stepVelocity depth done.1 line).1 },
        done.2 ++ (addedBy c stepVelocity depth done.1 line).2) := by
  simp only [readMusicLine, addedBy, List.append_assoc]

theorem le_length_addedBy (c : Score) (stepVelocity : Int) (depth : Nat) (s : MusicalSection) (line : Line) :
    (s.measuresOf line.key).length ≤ (addedBy c stepVelocity depth s line).1.length := by
  simp only [addedBy, length_addLine]
  omega

theorem addedBy_congr (alike : s.PlaysAs other) (line : Line) :
    addedBy c stepVelocity depth s line = addedBy c stepVelocity depth other line := by
  simp only [addedBy, alike.length, alike.chordAt, alike.measures]

theorem addedBy_insert {line : Line} (independent : line.IsIndependent c.sequences depth) {name : Text}
    (apart : line.key ≠ name) (noChord : name ≠ chordInstrument) (measures : List Measure) :
    addedBy c stepVelocity depth { s with measures := s.measures.insert name measures } line =
      addedBy c stepVelocity depth s line := by
  simp only [addedBy, chordAt_insert s noChord, measuresOf_insert, if_neg apart,
    ofLine_count c.sequences (MusicalSection.length { s with measures := s.measures.insert name measures })
      s.length depth line.number line.value independent.calm]

structure SameWork (done other : MusicalSection × List Diagnostic) : Prop where
  music : done.1.PlaysAs other.1
  reports : done.2.Perm other.2

theorem playsAs_readMusicLine {done other : MusicalSection × List Diagnostic}
    (alike : done.1.PlaysAs other.1) {line line' : Line} (same : line.Same line') :
    (readMusicLine c stepVelocity depth done line).1.PlaysAs
      (readMusicLine c stepVelocity depth other line').1 := by
  have number : (readMusicLine c stepVelocity depth other line).1 =
      (readMusicLine c stepVelocity depth other line').1 := readMusicLine_congr rfl same
  rw [← number, readMusicLine_eq_addedBy, readMusicLine_eq_addedBy, ← addedBy_congr alike]
  exact alike.insert line.key (le_length_addedBy ..)

theorem SameWork.readMusicLine {done other : MusicalSection × List Diagnostic} (same : SameWork done other)
    (line : Line) : SameWork (readMusicLine c stepVelocity depth done line)
      (readMusicLine c stepVelocity depth other line) where
  music := playsAs_readMusicLine same.music ⟨rfl, rfl⟩
  reports := by
    rw [readMusicLine_eq_addedBy, readMusicLine_eq_addedBy, ← addedBy_congr same.music]
    exact same.reports.append_right _

theorem readMusicLine_comm {a b : Line} (apart : a.key ≠ b.key)
    (independent : a.IsIndependent c.sequences depth) (independent' : b.IsIndependent c.sequences depth)
    (done : MusicalSection × List Diagnostic) :
    SameWork (readMusicLine c stepVelocity depth (readMusicLine c stepVelocity depth done a) b)
      (readMusicLine c stepVelocity depth (readMusicLine c stepVelocity depth done b) a) := by
  simp only [readMusicLine_eq_addedBy, addedBy_insert independent apart independent'.key,
    addedBy_insert independent' apart.symm independent.key]
  refine ⟨playsAs_insert_comm done.1 apart (le_length_addedBy ..) (le_length_addedBy ..), ?_⟩
  dsimp only
  rw [List.append_assoc, List.append_assoc]
  exact List.perm_append_comm.append_left _

theorem SameWork.foldl {done other : MusicalSection × List Diagnostic} (same : SameWork done other)
    (lines : List Line) : SameWork (lines.foldl (Score.readMusicLine c stepVelocity depth) done)
      (lines.foldl (Score.readMusicLine c stepVelocity depth) other) :=
  List.foldl_rel same fun line _ _ _ same => same.readMusicLine line

theorem sameWork_readMusicLines {section' : Section} {front back : List Line} {a b : Line}
    (lines : section'.lines = front ++ a :: b :: back) (apart : a.key ≠ b.key)
    (independent : a.IsIndependent c.sequences depth) (independent' : b.IsIndependent c.sequences depth) :
    SameWork (readMusicLines c stepVelocity depth section')
      (readMusicLines c stepVelocity depth { section' with lines := front ++ b :: a :: back }) := by
  -- the lines behind the chord lines keep their order, so the two still follow each other
  have first : ¬a.key = chordInstrument := independent.key
  have second : ¬b.key = chordInstrument := independent'.key
  simp only [readMusicLines, Section.moveFirst, lines, List.filter_append, List.filter_cons, first, second,
    decide_false, decide_not, Bool.not_false, Bool.false_eq_true, if_false, if_true, List.foldl_append,
    List.foldl_cons]
  exact (readMusicLine_comm apart independent independent' _).foldl _

end Score

end ScoreScript
