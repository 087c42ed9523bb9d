import ScoreScript.Compilation
import ScoreScript.Proofs.Parted
import ScoreScript.Proofs.RawLines
import ScoreScript.Proofs.Reading

set_option autoImplicit false

namespace ScoreScript

def Score.reservedNames : List Text :=
  [compositionName, instrumentsName, sequencesName, soundsName, controlName]

namespace Text

def comment : Text := "//"

theorem beforeWord_of_absent {word t : Text} (absent : hasWord word t = false) :
    beforeWord word t = t := by
  induction t with
  | nil => rfl
  | cons c rest ih =>
    rw [hasWord, Bool.or_eq_false_iff] at absent
    rw [beforeWord, if_neg (by simp [absent.1]), ih absent.2]

theorem hasWord_iff {word t : Text} : hasWord word t = true ↔ word <:+: t := by
  induction t with
  | nil => simp [hasWord]
  | cons c rest ih => simp [hasWord, List.infix_cons_iff, ih]

theorem hasWord_trim {word t : Text} (absent : hasWord word t = false) : hasWord word (trim t) = false := by
  rw [← Bool.not_eq_true, hasWord_iff] at absent ⊢
  exact fun inside => absent (inside.trans (trim_isInfix t))

theorem hasComment_append {t : Text} {c : CodePoint} (other : c ≠ .char '/') (u : Text) :
    hasWord comment (t ++ c :: u) = (hasWord comment t || hasWord comment u) := by
  have slashes : comment = [.char '/', .char '/'] := rfl
  have other' : (CodePoint.char '/' == c) = false := beq_eq_false_iff_ne.2 other.symm
  induction t with
  | nil => simp [hasWord, slashes, List.isPrefixOf, other']
  | cons a rest ih =>
    have starts : comment.isPrefixOf (a :: (rest ++ c :: u)) = comment.isPrefixOf (a :: rest) := by
      cases rest <;> simp [slashes, List.isPrefixOf, other']
    rw [List.cons_append, hasWord, starts, ih, hasWord, Bool.or_assoc]

theorem hasComment_between {between : Text} (spaced : between ≠ []) (clear : .char '/' ∉ between) (t u : Text) :
    hasWord comment (t ++ between ++ u) = (hasWord comment t || hasWord comment u) := by
  induction between generalizing t with
  | nil => contradiction
  | cons c rest ih =>
    rw [List.mem_cons, not_or] at clear
    rw [List.append_assoc, List.cons_append, hasComment_append (Ne.symm clear.1)]
    by_cases last : rest = []
    · rw [last, List.nil_append]
    · rw [← List.nil_append rest, ih last clear.2]
      rfl

end Text

/-! ### What a raw line says -/

namespace Script

open Text

def colon : Text := ": "

theorem content_of_plain {raw : Text} (plain : hasWord comment raw = false) : content raw = trim raw := by
  rw [content, ← comment.eq_def, beforeWord_of_absent (hasWord_trim plain), trim_trim]

theorem shapeOf_pair {key value : Text} (keyed : trim key ≠ []) (present : trim value ≠ [])
    (absent : .char ':' ∉ key) (plain : hasWord comment (key ++ colon ++ value) = false)
    (open' : bracketed? (content (key ++ colon ++ value)) = none) :
    shapeOf (content (key ++ colon ++ value)) = .pair (trim key) (trim value) := by
  obtain ⟨w, v, behind, before, inner⟩ := exists_trim_between keyed present colon
  have blank : AllBlank [.char ' '] := by simp [AllBlank, isBlank, CodePoint.toNat]
  have whole : content (key ++ colon ++ value) =
      (trim key ++ w) ++ .char ':' :: (([.char ' '] ++ v) ++ trim value) := by
    rw [content_of_plain plain, inner]
    simp [colon, Text.of]
  have absent' : .char ':' ∉ trim key ++ w := by
    rw [List.mem_append, not_or]
    exact ⟨fun inside => absent (mem_of_mem_trim inside), not_mem_of_allBlank behind (by decide)⟩
  rw [shapeOf, open', whole, cut_append _ absent']
  dsimp only
  rw [trim_append_right behind, trim_trim, trim_append_left (blank.append before), trim_trim]

theorem shapeOf_plain {value : Text} (present : trim value ≠ []) (absent : .char ':' ∉ value)
    (plain : hasWord comment value = false) (open' : bracketed? (content value) = none) :
    shapeOf (content value) = .plain := by
  have absent' : .char ':' ∉ trim value := fun inside => absent (mem_of_mem_trim inside)
  have none := cut_eq_none_iff.2 absent'
  rw [shapeOf, open', content_of_plain plain]
  dsimp only
  split
  next found => rw [found] at none; cases none
  next => rw [if_neg present]

/-! ### Sections with a line that is parted -/

variable {key first second : Text} {s s' : Section} {r r' : Reading}

structure Section.Parted (key first second : Text) (s s' : Section) : Prop where
  name : s.name = s'.name
  lines : Script.Parted key first second s.lines s'.lines
  reserved : s.name ∈ Score.reservedNames → s.SameLines s'

theorem Section.SameLines.refl (s : Section) : s.SameLines s :=
  List.forall₂_same.2 fun _ _ => ⟨rfl, rfl⟩

theorem Section.Parted.refl (s : Section) : s.Parted key first second s :=
  ⟨rfl, .of_same (Section.SameLines.refl s), fun _ => .refl s⟩

section

variable {R : Section → Section → Prop} {sections sections' : List Section}

theorem find?_related (names : ∀ {s s'}, R s s' → s.name = s'.name)
    (related : List.Forall₂ R sections sections') (name : Text) :
    Option.Rel (fun s s' => s.name = name ∧ R s s') (find? sections name) (find? sections' name) := by
  induction related with
  | nil => exact .none
  | @cons s s' _ _ here _ ih =>
    unfold find? at ih ⊢
    rw [List.find?_cons, List.find?_cons, ← names here]
    by_cases named : s.name = name
    · simpa only [named, decide_true] using Option.Rel.some ⟨named, here⟩
    · simpa only [named, decide_false] using ih

theorem find?_reserved (names : ∀ {s s'}, R s s' → s.name = s'.name)
    (same : ∀ {s s'}, R s s' → s.name ∈ Score.reservedNames → s.SameLines s')
    (related : List.Forall₂ R sections sections') :
    ∀ name ∈ Score.reservedNames,
      Option.Rel Section.SameLines (find? sections name) (find? sections' name) := by
  intro name reserved
  have found := find?_related names related name
  generalize find? sections name = s, find? sections' name = s' at found
  cases found with
  | none => exact .none
  | some here =>
    obtain ⟨rfl, here⟩ := here
    exact .some (same here reserved)

theorem find?_parted (parted : List.Forall₂ (Section.Parted key first second) sections sections')
    (name : Text) :
    Option.Rel (fun s s' => s.name = name ∧ s.Parted key first second s') (find? sections name)
      (find? sections' name) :=
  find?_related Section.Parted.name parted name

end

namespace Reading

structure Parted (key first second : Text) (r r' : Reading) : Prop where
  closed : List.Forall₂ (Section.Parted key first second) r.closed r'.closed
  current : Option.Rel (Section.Parted key first second) r.current r'.current
  last : r.key = r'.key

theorem Parted.close (parted : r.Parted key first second r') :
    List.Forall₂ (Section.Parted key first second) r.close.closed r'.close.closed := by
  rw [closed_close, closed_close]
  refine List.rel_append parted.closed ?_
  have current := parted.current
  generalize r.current = s, r'.current = s' at current
  cases current with
  | none => exact .nil
  | some here => exact .cons here .nil

theorem parentName?_reserved : ∀ name ∈ Score.reservedNames, parentName? name = none := by
  decide

theorem parted_inherited (closed : List.Forall₂ (Section.Parted key first second) r.closed r'.closed)
    (name : Text) (n n' : Nat) :
    Section.Parted key first second ⟨name, n, r.inherited name⟩ ⟨name, n', r'.inherited name⟩ := by
  refine ⟨rfl, ?_, fun reserved => ?_⟩
  · unfold inherited
    dsimp only
    cases parentName? name with
    | none => exact .nil
    | some parent =>
      rw [Option.bind_some, Option.bind_some]
      have found := find?_parted closed parent
      generalize find? r.closed parent = s, find? r'.closed parent = s' at found
      cases found with
      | none => exact .nil
      | some here => exact here.2.lines
  · -- no other section lends its lines to one that is not music
    have alone : parentName? name = none := parentName?_reserved name reserved
    simpa only [Section.SameLines, inherited, alone, Option.bind_none] using List.Forall₂.nil

theorem Parted.openSection (parted : r.Parted key first second r') (name : Text) (n n' : Nat) :
    (r.openSection name n).Parted key first second (r'.openSection name n') :=
  ⟨parted.close, .some (parted_inherited parted.close name n n'), rfl⟩

theorem parted_enter (closed : List.Forall₂ (Section.Parted key first second) r.closed r'.closed)
    (here : s.Parted key first second s') {line line' : Line} (same : line.Same line') :
    (r.enter s line).Parted key first second (r'.enter s' line') := by
  have more : List.Forall₂ Line.Same [line] [line'] := .cons same .nil
  refine ⟨by simpa using closed, ?_, by simpa using same.key⟩
  rw [current_enter, current_enter]
  refine .some ⟨here.name, here.lines.append (.of_same more), fun reserved => ?_⟩
  exact List.rel_append (here.reserved reserved) more

theorem Parted.report (parted : r.Parted key first second r') (kind : Diagnostic.Kind) (info : Text)
    (n n' : Nat) : (r.report kind info n).Parted key first second (r'.report kind info n') :=
  ⟨parted.closed, parted.current, parted.last⟩

theorem Parted.line (parted : r.Parted key first second r') (raw : Text) (n n' : Nat) :
    (r.line raw n).Parted key first second (r'.line raw n') := by
  have closed := parted.closed
  have current := parted.current
  unfold Reading.line
  dsimp only
  rw [← parted.last]
  cases shapeOf (content raw) with
  | blank => exact parted
  | header name => exact parted.openSection name n n'
  | pair k value =>
    generalize r.current = s, r'.current = s' at current
    cases current with
    | none => exact parted.report _ _ n n'
    | some here => exact parted_enter closed here ⟨rfl, rfl⟩
  | plain =>
    generalize r.current = s, r'.current = s' at current
    cases current with
    | none => exact parted.report _ _ n n'
    | some here =>
      dsimp only
      split_ifs
      · exact parted.report _ _ n n'
      · exact parted_enter closed here ⟨rfl, rfl⟩

theorem Parted.lines (raws : List Text) (parted : r.Parted key first second r') (n n' : Nat) :
    (r.lines n raws).Parted key first second (r'.lines n' raws) := by
  induction raws generalizing r r' n n' with
  | nil => exact parted
  | cons raw rest ih => exact ih (parted.line raw n n') (n + 1) (n' + 1)

theorem Parted.refl (r : Reading) : r.Parted key first second r := by
  refine ⟨List.forall₂_same.2 fun s _ => .refl s, ?_, rfl⟩
  cases r.current with
  | none => exact .none
  | some s => exact .some (.refl s)

end Reading

def brokenLines (key first second : Text) : List Text :=
  [key ++ colon ++ (first ++ Phrase.barBetween ++ second), key ++ colon ++ first, second]

/-- Whether a line can be broken into two: no part is blank or has a comment, the key and the second part
have no colon, and no line is a header. -/
structure Breakable (key first second : Text) : Prop where
  present : ∀ t ∈ [key, first, second], trim t ≠ []
  plain : ∀ t ∈ [key, first, second], hasWord comment t = false
  colonless : ∀ t ∈ [key, second], .char ':' ∉ t
  headerless : ∀ raw ∈ brokenLines key first second, bracketed? (content raw) = none

instance (key first second : Text) : Decidable (Breakable key first second) :=
  decidable_of_iff (_ ∧ _ ∧ _ ∧ _)
    ⟨fun ⟨present, plain, colonless, headerless⟩ => ⟨present, plain, colonless, headerless⟩,
      fun ⟨present, plain, colonless, headerless⟩ => ⟨present, plain, colonless, headerless⟩⟩

variable (breakable : Breakable key first second)

include breakable

theorem Breakable.shapeOf_first :
    shapeOf (content (key ++ colon ++ first)) = .pair (trim key) (trim first) := by
  refine shapeOf_pair (breakable.present key (by simp)) (breakable.present first (by simp))
    (breakable.colonless key (by simp)) ?_ (breakable.headerless _ (by simp [brokenLines]))
  rw [hasComment_between (by decide) (by decide), breakable.plain key (by simp),
    breakable.plain first (by simp)]
  rfl

theorem Breakable.shapeOf_whole :
    shapeOf (content (key ++ colon ++ (first ++ Phrase.barBetween ++ second))) =
      .pair (trim key) (trim (first ++ Phrase.barBetween ++ second)) := by
  have bar : .char '|' ∈ first ++ Phrase.barBetween ++ second := by simp [Phrase.barBetween, Text.of]
  refine shapeOf_pair (breakable.present key (by simp)) (List.ne_nil_of_mem (mem_trim (by decide) bar))
    (breakable.colonless key (by simp)) ?_ (breakable.headerless _ (by simp [brokenLines]))
  rw [hasComment_between (by decide) (by decide), hasComment_between (by decide) (by decide),
    breakable.plain key (by simp), breakable.plain first (by simp), breakable.plain second (by simp)]
  rfl

theorem Breakable.shapeOf_second : shapeOf (content second) = .plain :=
  shapeOf_plain (breakable.present second (by simp)) (breakable.colonless second (by simp))
    (breakable.plain second (by simp)) (breakable.headerless second (by simp [brokenLines]))

theorem Breakable.line {s : Section} (opened : r.current = some s)
    (music : s.name ∉ Score.reservedNames) (n n' n'' : Nat) :
    (r.line (key ++ colon ++ (first ++ Phrase.barBetween ++ second)) n).Parted (trim key) first second
      ((r.line (key ++ colon ++ first) n').line second n'') := by
  have whole : r.line (key ++ colon ++ (first ++ Phrase.barBetween ++ second)) n =
      r.enter s ⟨trim key, trim (first ++ Phrase.barBetween ++ second), n⟩ := by
    rw [Reading.line, breakable.shapeOf_whole, opened]
  have begun : r.line (key ++ colon ++ first) n' = r.enter s ⟨trim key, trim first, n'⟩ := by
    rw [Reading.line, breakable.shapeOf_first, opened]
  have value : content second = trim second := content_of_plain (breakable.plain second (by simp))
  rw [whole, begun, Reading.line, breakable.shapeOf_second, Reading.current_enter, Reading.key_enter]
  dsimp only
  rw [if_neg (breakable.present key (by simp)), value]
  have lines : Script.Parted (trim key) first second s.lines s.lines :=
    .of_same (Section.SameLines.refl s)
  refine ⟨?_, ?_, by simp⟩
  · simpa using (Reading.Parted.refl r).closed
  · rw [Reading.current_enter, Reading.current_enter]
    refine .some ⟨rfl, ?_, fun reserved => absurd reserved music⟩
    dsimp only
    rw [List.append_assoc s.lines]
    exact lines.append (.part n n' n'' .nil)

theorem Breakable.parse {text text' : Text} {before after : List Text} {s : Section}
    (whole : text.splitOn (.char '\n') =
      before ++ (key ++ colon ++ (first ++ Phrase.barBetween ++ second)) :: after)
    (broken : text'.splitOn (.char '\n') = before ++ (key ++ colon ++ first) :: second :: after)
    (opened : (Reading.lines {} 1 before).current = some s) (music : s.name ∉ Score.reservedNames) :
    List.Forall₂ (Section.Parted (trim key) first second) (parse text).1 (parse text').1 := by
  unfold Script.parse
  dsimp only
  rw [whole, broken, Reading.lines_append, Reading.lines_append]
  simp only [Reading.lines]
  exact ((breakable.line opened music _ _ _).lines after _ _).close

end Script

/-! ### Scores -/

namespace Score

open Fault Phrase Script

variable {settings : Settings} {key first second : Text} {sections sections' : List Section}

theorem alike_beforeMusic (settings : Settings)
    (same : ∀ name ∈ reservedNames,
      Option.Rel Section.SameLines (Script.find? sections name) (Script.find? sections' name)) :
    Alike SameScore (beforeMusic settings sections) (beforeMusic settings sections') := by
  refine (alike_readHeader rfl (same _ (by decide))).bind fun titled => ?_
  refine (alike_readInstruments titled (same _ (by decide))).bind fun manned => ?_
  exact alike_readSounds (sameScore_readSequences manned (same _ (by decide))) (same _ (by decide))

structure SamePlayed (sequences : Table Text) (r other : Reading) : Prop where
  score : SameScore r other
  sequences : r.score.sequences = sequences

section

variable {sequences : Table Text} (present : Text.trim first ≠ []) (present' : Text.trim second ≠ [])
  (parts : ∀ depth, settings.maxDepth.toInt = .ok depth → Parts sequences depth.toNat first second)

include present present' parts

theorem alike_readMusicalSection {c : Score} (known : c.sequences = sequences) {s s' : Section}
    (parted : s.Parted key first second s') :
    Alike (fun music music' => music.1 = music'.1) (readMusicalSection settings c s)
      (readMusicalSection settings c s') := by
  subst known
  unfold readMusicalSection
  cases limit : settings.maxDepth.toInt with
  | error fault => exact .error fault
  | ok depth =>
    change Alike _ (settings.stepVelocity.toInt >>= _) (settings.stepVelocity.toInt >>= _)
    refine .bind_same fun stepVelocity => .ok ?_
    exact readMusicLines_parted present present' (parts depth limit) parted.name parted.lines

theorem alike_readPlaylistItem
    (parted : List.Forall₂ (Section.Parted key first second) sections sections') (line line' : Nat)
    (name : Text) {r other : Reading} (same : SamePlayed sequences r other) :
    Alike (SamePlayed sequences) (readPlaylistItem settings sections line r name)
      (readPlaylistItem settings sections' line' other name) := by
  obtain ⟨score, known⟩ := same
  unfold readPlaylistItem
  have found := find?_parted parted name
  generalize Script.find? sections name = s, Script.find? sections' name = s' at found
  cases found with
  | none => exact .ok ⟨score, known⟩
  | some here =>
    dsimp only
    rw [← score]
    refine (alike_readMusicalSection present present' parts known here.2).bind fun {music music'} same => ?_
    refine .ok ⟨?_, known⟩
    simp only [SameScore, same]

theorem alike_readMusic (parted : List.Forall₂ (Section.Parted key first second) sections sections')
    {r other : Reading} (same : SamePlayed sequences r other) :
    Alike (SamePlayed sequences) (readMusic settings sections r) (readMusic settings sections' other) := by
  unfold readMusic
  dsimp only
  rw [← same.score]
  refine Alike.foldlM (R := Eq) (fun same named => ?_) (List.forall₂_same.2 fun _ _ => rfl) same
  subst named
  exact alike_readPlaylistItem present present' parts parted _ _ _ same

end

theorem alike_ofSections (present : Text.trim first ≠ []) (present' : Text.trim second ≠ [])
    (parts : ∀ composed depth, beforeMusic settings sections = .ok composed →
      settings.maxDepth.toInt = .ok depth → Parts composed.score.sequences depth.toNat first second)
    (parted : List.Forall₂ (Section.Parted key first second) sections sections') :
    Alike SameScore (ofSections settings sections) (ofSections settings sections') := by
  have reserved := find?_reserved Section.Parted.name Section.Parted.reserved parted
  have before : Alike SameScore (beforeControl settings sections) (beforeControl settings sections') := by
    have composed := alike_beforeMusic settings reserved
    unfold beforeControl
    generalize read : beforeMusic settings sections = r, beforeMusic settings sections' = other at composed ⊢
    cases composed with
    | error fault => exact .error fault
    | @ok r _ score =>
      exact (alike_readMusic present present' (fun depth => parts r depth read) parted ⟨score, rfl⟩).imp
        (·.score)
  rw [ofSections_eq, ofSections_eq]
  exact before.bind fun played => alike_readControl played (reserved _ (by decide))

end Score

namespace Compilation

open Fault Phrase Script

/-- A line of music may be broken at a bar: the rest goes on under its key, and the score and the timeline are
those of the whole line. It may not be broken where a repetition looks back over the bar, where all phrases are
repeated on both sides of it, or where a blank phrase at the bar is the call of a sequence. -/
theorem continuation_keeps_music (settings : Settings) (earlier : Option Selection) {text text' : Text}
    {before after : List Text} {key first second : Text} {s : Section}
    (whole : text.splitOn (.char '\n') = before ++ (key ++ colon ++ (first ++ barBetween ++ second)) :: after)
    (broken : text'.splitOn (.char '\n') = before ++ (key ++ colon ++ first) :: second :: after)
    (opened : (Reading.lines {} 1 before).current = some s) (music : s.name ∉ Score.reservedNames)
    (breakable : Breakable key first second)
    (parts : ∀ composed depth, Score.beforeMusic settings (parse text).1 = .ok composed →
      settings.maxDepth.toInt = .ok depth → Parts composed.score.sequences depth.toNat first second) :
    (ofText settings earlier text').map (fun c => (c.score, c.timeline)) =
      (ofText settings earlier text).map (fun c => (c.score, c.timeline)) := by
  have sections := breakable.parse whole broken opened music
  have scores := Score.alike_ofSections (breakable.present first (by simp))
    (breakable.present second (by simp)) parts sections
  have compiled : Alike (fun c c' => (c.score, c.timeline) = (c'.score, c'.timeline))
      (ofText settings earlier text) (ofText settings earlier text') := by
    unfold ofText
    refine scores.bind fun {reading reading'} score => ?_
    dsimp only
    rw [score]
    exact .bind_same fun timeline => .ok rfl
  exact (compiled.map_eq id).symm

def preamble : List Text := ["[composition]", "playlist: a", "[instruments]", "s: octave=3", "[a]"]

def scriptOf (music : Text) : Text := preamble.flatMap (· ++ [.char '\n']) ++ music

theorem continuation_keeps_music_of_tie :
    (ofText bareSettings none (scriptOf "s: 1 | *\n- | 2 3")).map (fun c => (c.score, c.timeline)) =
      (ofText bareSettings none (scriptOf "s: 1 | * | - | 2 3")).map (fun c => (c.score, c.timeline)) := by
  have whole : (scriptOf "s: 1 | * | - | 2 3").splitOn (.char '\n') =
      preamble ++ [("s" ++ colon ++ ("1 | *" ++ barBetween ++ "- | 2 3") : Text)] := by decide +kernel
  have broken : (scriptOf "s: 1 | *\n- | 2 3").splitOn (.char '\n') =
      preamble ++ [("s" ++ colon ++ "1 | *" : Text), "- | 2 3"] := by decide +kernel
  have opened : (Reading.lines {} 1 preamble).current = some ⟨"a", 5, []⟩ := by decide +kernel
  have sequences : (Score.beforeMusic bareSettings (parse (scriptOf "s: 1 | * | - | 2 3")).1).toOption.map
      (·.score.sequences) = some [] := by decide +kernel
  have breakable : Breakable "s" "1 | *" "- | 2 3" := by decide +kernel
  have parts : Parts [] 8 "1 | *" "- | 2 3" := by decide +kernel
  refine continuation_keeps_music bareSettings none whole broken opened (by decide) breakable
    fun composed depth read limit => ?_
  rw [read] at sequences
  cases limit
  have none : composed.score.sequences = [] := Option.some.inj sequences
  rw [none]
  exact parts

def sectionsOf (text : Text) : Option (List MusicalSection) :=
  (ofText bareSettings none text).toOption.map (·.score.sections)

/-- A repetition does not look back over a line end, nor count the phrases behind it. A line in brackets is
a header, nothing goes on under a blank key, and the blanks next to a bar are a phrase that can be a call. -/
theorem continuation_differs :
    sectionsOf (scriptOf "s: 1 | *") ≠ sectionsOf (scriptOf "s: 1\n*") ∧
      sectionsOf (scriptOf "s: 1 | ...") ≠ sectionsOf (scriptOf "s: 1\n...") ∧
      sectionsOf (scriptOf "t: 1 | 2 | 3\ns: 1 | ... | 2") ≠
        sectionsOf (scriptOf "t: 1 | 2 | 3\ns: 1 | ...\n2") ∧
      sectionsOf (scriptOf "s: 1 | [2]") ≠ sectionsOf (scriptOf "s: 1\n[2]") ∧
      sectionsOf (scriptOf ": 1 | 2") ≠ sectionsOf (scriptOf ": 1\n2") ∧
      sectionsOf (scriptOf "s: 1 | | 2\n[sequences]\n: 3") ≠
        sectionsOf (scriptOf "s: 1 |\n2\n[sequences]\n: 3") := by
  decide +kernel

end Compilation

end ScoreScript
