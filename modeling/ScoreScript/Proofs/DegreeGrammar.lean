import Mathlib.Data.List.Basic
import ScoreScript.Proofs.DegreeNotes

set_option autoImplicit false

namespace ScoreScript

namespace Degree

def digits : Text := "1234567"

inductive IsRow : Text → Prop
  | done : IsRow []
  | raised : IsRow [.char '\'']
  | point {t : Text} (row : IsRow t) : IsRow (.char '.' :: t)
  | digit {t : Text} {digit : CodePoint} (known : digit ∈ digits) (row : IsRow t) : IsRow (digit :: t)
  | sharp {t : Text} {digit : CodePoint} (known : digit ∈ digits) (row : IsRow t) :
    IsRow (.char '#' :: digit :: t)

def HasItem (t : Text) : Prop := ∃ c ∈ t, isMark c = false

/-- Whether a text is in the grammar: a row that has a point or a digit, and a quote that may stand in front,
also behind a sharp. -/
inductive InGrammar : Text → Prop
  | plain {t : Text} (row : IsRow t) (item : HasItem t) : InGrammar t
  | lowered {t : Text} (row : IsRow t) (item : HasItem t) : InGrammar (.char '\'' :: t)
  | sharp {t : Text} {digit : CodePoint} (known : digit ∈ digits) (row : IsRow t) :
    InGrammar (.char '#' :: .char '\'' :: digit :: t)

/-- Whether a text has an item, every sharp stands before a digit or, at the start, before a quote and a digit,
and every quote stands at the start, also behind a sharp, or at the end. -/
structure UsesMarks (t : Text) : Prop where
  item : HasItem t
  sharps : ∀ before after, t = before ++ .char '#' :: after → ∃ digit ∈ digits, ∃ rest,
    after = digit :: rest ∨ before = [] ∧ after = .char '\'' :: digit :: rest
  quotes : ∀ before after, t = before ++ .char '\'' :: after →
    before = [] ∨ before = [.char '#'] ∨ after = []

structure IsNeat (t : Text) : Prop where
  sharps : ∀ before after, t = before ++ .char '#' :: after → ∃ digit ∈ digits, ∃ rest, after = digit :: rest
  quotes : ∀ before after, t = before ++ .char '\'' :: after → after = []

variable {c digit : CodePoint} {t : Text}

theorem isMark_of_mem_digits (known : digit ∈ digits) : isMark digit = false := by
  have each : ∀ digit ∈ digits, isMark digit = false := by decide
  exact each digit known

theorem IsNeat.cons (neat : IsNeat t) (noMark : isMark c = false) : IsNeat (c :: t) := by
  have plain : c ≠ .char '#' ∧ c ≠ .char '\'' := by simpa [isMark] using noMark
  constructor
  · intro before after split
    obtain ⟨-, here⟩ | ⟨front, -, later⟩ := List.cons_eq_append_iff.1 split
    · exact absurd (List.cons.inj here).1.symm plain.1
    · exact neat.sharps front after later
  · intro before after split
    obtain ⟨-, here⟩ | ⟨front, -, later⟩ := List.cons_eq_append_iff.1 split
    · exact absurd (List.cons.inj here).1.symm plain.2
    · exact neat.quotes front after later

theorem IsNeat.sharp (neat : IsNeat t) (known : digit ∈ digits) : IsNeat (.char '#' :: digit :: t) := by
  have neat := neat.cons (isMark_of_mem_digits known)
  constructor
  · intro before after split
    obtain ⟨-, here⟩ | ⟨front, -, later⟩ := List.cons_eq_append_iff.1 split
    · exact ⟨digit, known, t, (List.cons.inj here).2⟩
    · exact neat.sharps front after later
  · intro before after split
    obtain ⟨-, here⟩ | ⟨front, -, later⟩ := List.cons_eq_append_iff.1 split
    · simp at here
    · exact neat.quotes front after later

theorem IsNeat.tail (neat : IsNeat (c :: t)) : IsNeat t where
  sharps before after split := neat.sharps (c :: before) after (by simp [split])
  quotes before after split := neat.quotes (c :: before) after (by simp [split])

theorem IsRow.isNeat (row : IsRow t) : IsNeat t := by
  induction row with
  | done => exact ⟨by simp, by simp⟩
  | raised =>
    constructor
    · intro before after split
      obtain ⟨-, here⟩ | ⟨front, -, later⟩ := List.cons_eq_append_iff.1 split
      · simp at here
      · simp at later
    · intro before after split
      obtain ⟨-, here⟩ | ⟨front, -, later⟩ := List.cons_eq_append_iff.1 split
      · exact (List.cons.inj here).2
      · simp at later
  | point _ ih => exact ih.cons (by decide)
  | digit known _ ih => exact ih.cons (isMark_of_mem_digits known)
  | sharp known _ ih => exact ih.sharp known

theorem IsNeat.isRow : ∀ {t : Text}, (∀ c ∈ t, c ∈ Text.of ".#'1234567") → IsNeat t → IsRow t
  | [], _, _ => .done
  | c :: rest, letters, neat => by
    obtain ⟨here, later⟩ := List.forall_mem_cons.1 letters
    by_cases sharp : c = .char '#'
    · subst sharp
      obtain ⟨digit, known, rest, rfl⟩ := neat.sharps [] rest rfl
      exact .sharp known (neat.tail.tail.isRow (List.forall_mem_cons.1 later).2)
    by_cases quote : c = .char '\''
    · subst quote
      obtain rfl := neat.quotes [] rest rfl
      exact .raised
    have row := neat.tail.isRow later
    by_cases point : c = .char '.'
    · subst point
      exact .point row
    · have known : c ∈ digits := by simpa [Text.of, digits, sharp, quote, point] using here
      exact .digit known row
termination_by t => t.length

theorem HasItem.cons (item : HasItem t) (c : CodePoint) : HasItem (c :: t) := by
  obtain ⟨d, member, noMark⟩ := item
  exact ⟨d, List.mem_cons_of_mem c member, noMark⟩

theorem IsNeat.usesMarks (neat : IsNeat t) (item : HasItem t) : UsesMarks t where
  item := item
  sharps before after split := by
    obtain ⟨digit, known, rest, here⟩ := neat.sharps before after split
    exact ⟨digit, known, rest, .inl here⟩
  quotes before after split := .inr (.inr (neat.quotes before after split))

theorem IsNeat.usesMarks_quote (neat : IsNeat t) (item : HasItem t) : UsesMarks (.char '\'' :: t) where
  item := item.cons _
  sharps before after split := by
    obtain ⟨-, here⟩ | ⟨front, -, later⟩ := List.cons_eq_append_iff.1 split
    · simp at here
    · obtain ⟨digit, known, rest, here⟩ := neat.sharps front after later
      exact ⟨digit, known, rest, .inl here⟩
  quotes before after split := by
    obtain ⟨start, -⟩ | ⟨front, -, later⟩ := List.cons_eq_append_iff.1 split
    · exact .inl start
    · exact .inr (.inr (neat.quotes front after later))

theorem IsNeat.usesMarks_sharp (neat : IsNeat t) (known : digit ∈ digits) :
    UsesMarks (.char '#' :: .char '\'' :: digit :: t) := by
  have behind := (neat.cons (isMark_of_mem_digits known)).usesMarks_quote
    ⟨digit, by simp, isMark_of_mem_digits known⟩
  refine ⟨behind.item.cons _, fun before after split => ?_, fun before after split => ?_⟩
  · obtain ⟨start, here⟩ | ⟨front, -, later⟩ := List.cons_eq_append_iff.1 split
    · exact ⟨digit, known, t, .inr ⟨start, (List.cons.inj here).2⟩⟩
    · obtain ⟨digit, known, rest, here | ⟨rfl, here⟩⟩ := behind.sharps front after later
      · exact ⟨digit, known, rest, .inl here⟩
      · simp at later
  · obtain ⟨-, here⟩ | ⟨front, rfl, later⟩ := List.cons_eq_append_iff.1 split
    · simp at here
    · obtain rfl | rfl | final := behind.quotes front after later
      · exact .inr (.inl rfl)
      · simp at later
      · exact .inr (.inr final)

theorem UsesMarks.inGrammar (letters : ∀ c ∈ t, c ∈ Text.of ".#'1234567") (uses : UsesMarks t) :
    InGrammar t := by
  obtain ⟨item, sharps, quotes⟩ := uses
  by_cases quoted : ∃ u, t = .char '\'' :: u
  · obtain ⟨u, rfl⟩ := quoted
    have neat : IsNeat u := by
      constructor
      · intro before after split
        obtain ⟨digit, known, rest, here | ⟨start, -⟩⟩ := sharps (.char '\'' :: before) after (by simp [split])
        · exact ⟨digit, known, rest, here⟩
        · cases start
      · intro before after split
        simpa using quotes (.char '\'' :: before) after (by simp [split])
    obtain ⟨c, member, noMark⟩ := item
    rcases List.mem_cons.1 member with rfl | inside
    · cases noMark
    · exact .lowered (neat.isRow (List.forall_mem_cons.1 letters).2) ⟨c, inside, noMark⟩
  by_cases lowered : ∃ u, t = .char '#' :: .char '\'' :: u
  · obtain ⟨u, rfl⟩ := lowered
    obtain ⟨digit, known, rest, here | ⟨-, here⟩⟩ := sharps [] _ rfl
    · cases (List.cons.inj here).1
      exact absurd (isMark_of_mem_digits known) (by decide)
    obtain rfl := (List.cons.inj here).2
    have neat : IsNeat rest := by
      constructor
      · intro before after split
        obtain ⟨other, known', behind, here | ⟨start, -⟩⟩ :=
          sharps (.char '#' :: .char '\'' :: digit :: before) after (by simp [split])
        · exact ⟨other, known', behind, here⟩
        · cases start
      · intro before after split
        simpa using quotes (.char '#' :: .char '\'' :: digit :: before) after (by simp [split])
    have inside : ∀ c ∈ rest, c ∈ Text.of ".#'1234567" := fun c member => letters c (by simp [member])
    exact .sharp known (neat.isRow inside)
  · have neat : IsNeat t := by
      constructor
      · intro before after split
        obtain ⟨digit, known, rest, here | ⟨rfl, rfl⟩⟩ := sharps before after split
        · exact ⟨digit, known, rest, here⟩
        · exact absurd ⟨_, split⟩ lowered
      · intro before after split
        obtain rfl | rfl | final := quotes before after split
        · exact absurd ⟨_, split⟩ quoted
        · exact absurd ⟨_, split⟩ lowered
        · exact final
    exact .plain (neat.isRow letters) item

theorem inGrammar_iff_usesMarks (letters : ∀ c ∈ t, c ∈ Text.of ".#'1234567") : InGrammar t ↔ UsesMarks t := by
  refine ⟨fun grammar => ?_, UsesMarks.inGrammar letters⟩
  cases grammar with
  | plain row item => exact row.isNeat.usesMarks item
  | lowered row item => exact row.isNeat.usesMarks_quote item
  | sharp known row => exact row.isNeat.usesMarks_sharp known

end Degree

namespace Step.Draft

open Degree

def picked (sharp : Bool) : Text → List (Bool × CodePoint)
  | [] => []
  | c :: rest =>
    if c = '#' then picked true rest
    else if c = '\'' then picked sharp rest
    else (sharp, c) :: picked false rest

def signedRow (lower higher : Bool) : List (Bool × CodePoint) → List Text
  | [] => []
  | (sharp, c) :: rest => signed sharp lower higher c :: rest.map fun item => signed item.1 lower false item.2

theorem signedRow_false (lower : Bool) (items : List (Bool × CodePoint)) :
    signedRow lower false items = items.map fun item => signed item.1 lower false item.2 := by
  cases items <;> rfl

theorem go_eq (lower sharp higher : Bool) (t : Text) :
    degreesOf.go lower sharp higher t = signedRow lower higher (picked sharp t) := by
  induction t generalizing sharp higher with
  | nil => rfl
  | cons c rest ih =>
    rw [degreesOf.go, picked]
    split_ifs
    · exact ih true higher
    · exact ih sharp higher
    · rw [ih false false, signedRow_false]
      rfl

theorem degreesOf_eq (t : Text) : degreesOf t = signedRow (startsLow t) (endsHigh t) (picked false t) :=
  go_eq (startsLow t) false (endsHigh t) t

theorem exists_signed (lower higher : Bool) {items : List (Bool × CodePoint)} {item : Bool × CodePoint}
    (member : item ∈ items) : ∃ high, signed item.1 lower high item.2 ∈ signedRow lower higher items := by
  cases items with
  | nil => cases member
  | cons first rest =>
    rcases List.mem_cons.1 member with rfl | later
    · exact ⟨higher, List.mem_cons_self ..⟩
    · exact ⟨false, List.mem_cons_of_mem _ (List.mem_map.2 ⟨item, later, rfl⟩)⟩

theorem exists_mem_picked {t : Text} {c : CodePoint} (member : c ∈ t) (noMark : isMark c = false)
    (sharp : Bool) : ∃ raised, (raised, c) ∈ picked sharp t := by
  have plain : c ≠ .char '#' ∧ c ≠ .char '\'' := by simpa [isMark] using noMark
  induction t generalizing sharp with
  | nil => cases member
  | cons d rest ih =>
    rw [picked]
    rcases List.mem_cons.1 member with rfl | later
    · exact ⟨sharp, by simp [plain]⟩
    · split_ifs
      · exact ih later true
      · exact ih later sharp
      · obtain ⟨raised, inside⟩ := ih later false
        exact ⟨raised, List.mem_cons_of_mem _ inside⟩

theorem mem_of_mem_picked {t : Text} {sharp : Bool} {item : Bool × CodePoint} (member : item ∈ picked sharp t) :
    item.2 ∈ t ∧ isMark item.2 = false := by
  induction t generalizing sharp with
  | nil => cases member
  | cons c rest ih =>
    rw [picked] at member
    split_ifs at member with isSharp isQuote
    · exact (ih member).imp_left (List.mem_cons_of_mem c)
    · exact (ih member).imp_left (List.mem_cons_of_mem c)
    · rcases List.mem_cons.1 member with rfl | later
      · exact ⟨List.mem_cons_self .., by simp [isMark, isSharp, isQuote]⟩
      · exact (ih later).imp_left (List.mem_cons_of_mem c)

def IsKnown (degree : Text) : Prop := degree = "." ∨ (index? degree).isSome = true

theorem item_of_isKnown {sharp lower higher : Bool} {c : CodePoint} (noMark : isMark c = false)
    (known : IsKnown (signed sharp lower higher c)) : sharp = false ∧ c = .char '.' ∨ c ∈ digits := by
  rcases known with rest | found
  · cases sharp with
    | false =>
      have inside : c ∈ Text.of "." := rest ▸ by simp [signed]
      exact .inl ⟨rfl, by simpa [Text.of] using inside⟩
    | true =>
      cases lower <;> cases higher <;> simp [signed, Text.of] at rest
  · have listed : signed sharp lower higher c ∈ all := by
      by_contra absent
      simp [index?, List.idxOf?_eq_none_iff.2 absent] at found
    have each : ∀ name ∈ all, ∀ c ∈ name, isMark c = false → c ∈ digits := by decide +kernel
    exact .inr (each _ listed c (by simp [signed]) noMark)

theorem isKnown_of_clean {octave transposition : Int} {degrees : List Text} {d : Draft}
    (clean : (degrees.foldl (addDegree octave transposition) d).error = none) :
    ∀ degree ∈ degrees, IsKnown degree := by
  -- from the last degree, as an error that has come up stays
  induction degrees using List.reverseRecOn with
  | nil => simp
  | append_singleton before degree ih =>
    rw [List.foldl_append, List.foldl_cons, List.foldl_nil] at clean
    have known : IsKnown degree := by
      by_cases rest : degree = "."
      · exact .inl rest
      · obtain ⟨-, index, found, -⟩ := addDegree_of_clean rest clean
        exact .inr (by simp [found])
    have earlier : (before.foldl (addDegree octave transposition) d).error = none := by
      by_cases rest : degree = "."
      · rwa [addDegree, if_pos rest] at clean
      · exact (addDegree_of_clean rest clean).1
    exact List.forall_mem_append.2 ⟨ih earlier, by simpa using known⟩

/-! ### Texts without idle marks -/

def itemText (item : Bool × CodePoint) : Text := (if item.1 then Text.of "#" else []) ++ [item.2]

def rewritten (lower higher : Bool) (items : List (Bool × CodePoint)) : Text :=
  (if lower then Text.of "'" else []) ++ (items.flatMap itemText ++ if higher then Text.of "'" else [])

variable {items : List (Bool × CodePoint)}

theorem isRow_flatMap (higher : Bool)
    (written : ∀ item ∈ items, item.1 = false ∧ item.2 = .char '.' ∨ item.2 ∈ digits) :
    IsRow (items.flatMap itemText ++ if higher then Text.of "'" else []) := by
  induction items with
  | nil =>
    cases higher with
    | false => exact .done
    | true => exact .raised
  | cons item rest ih =>
    obtain ⟨here, later⟩ := List.forall_mem_cons.1 written
    have row := ih later
    obtain ⟨sharp, c⟩ := item
    rcases here with ⟨plain, point⟩ | known
    · cases plain
      cases point
      exact .point row
    · cases sharp with
      | false => exact .digit known row
      | true => exact .sharp known row

theorem picked_flatMap (noMarks : ∀ item ∈ items, isMark item.2 = false) (back : Text) :
    picked false (items.flatMap itemText ++ back) = items ++ picked false back := by
  induction items with
  | nil => rfl
  | cons item rest ih =>
    obtain ⟨here, later⟩ := List.forall_mem_cons.1 noMarks
    have plain : item.2 ≠ .char '#' ∧ item.2 ≠ .char '\'' := by simpa [isMark] using here
    obtain ⟨sharp, c⟩ := item
    cases sharp <;> simp [itemText, Text.of, picked, plain, ih later]

theorem startsLow_rewritten (lower higher : Bool) (present : items ≠ [])
    (noMarks : ∀ item ∈ items, isMark item.2 = false) : startsLow (rewritten lower higher items) = lower := by
  obtain ⟨⟨sharp, c⟩, rest, rfl⟩ := List.exists_cons_of_ne_nil present
  have plain : c ≠ .char '#' ∧ c ≠ .char '\'' := by simpa [isMark] using noMarks (sharp, c) (by simp)
  cases lower with
  | true => rfl
  | false =>
    cases sharp <;>
      simp [rewritten, startsLow, itemText, Text.of, List.isPrefixOf, plain, Ne.symm plain.1, Ne.symm plain.2]

theorem endsHigh_rewritten (lower higher : Bool) (present : items ≠ [])
    (noMarks : ∀ item ∈ items, isMark item.2 = false) : endsHigh (rewritten lower higher items) = higher := by
  obtain ⟨front, ⟨sharp, c⟩, rfl⟩ := (List.eq_nil_or_concat' items).resolve_left present
  have plain : c ≠ .char '#' ∧ c ≠ .char '\'' := by simpa [isMark] using noMarks (sharp, c) (by simp)
  cases higher <;> simp [rewritten, endsHigh, itemText, Text.of, plain]

theorem exists_inGrammar {t : Text} (known : ∀ degree ∈ degreesOf t, IsKnown degree) (item : HasItem t) :
    ∃ other, InGrammar other ∧ degreesOf other = degreesOf t := by
  obtain ⟨c, member, noMark⟩ := item
  obtain ⟨raised, inside⟩ := exists_mem_picked member noMark false
  have present : picked false t ≠ [] := List.ne_nil_of_mem inside
  have noMarks (item) (member : item ∈ picked false t) : isMark item.2 = false := (mem_of_mem_picked member).2
  have written (item) (member : item ∈ picked false t) :
      item.1 = false ∧ item.2 = .char '.' ∨ item.2 ∈ digits := by
    obtain ⟨high, here⟩ := exists_signed (startsLow t) (endsHigh t) member
    exact item_of_isKnown (noMarks item member) (known _ (degreesOf_eq t ▸ here))
  have row := isRow_flatMap (endsHigh t) written
  have shown : HasItem ((picked false t).flatMap itemText ++ if endsHigh t then Text.of "'" else []) := by
    refine ⟨c, List.mem_append_left _ (List.mem_flatMap.2 ⟨_, inside, ?_⟩), noMark⟩
    simp [itemText]
  -- the items that were picked up, each with its sharp written once and the quotes at both ends
  refine ⟨rewritten (startsLow t) (endsHigh t) (picked false t), ?_, ?_⟩
  · cases low : startsLow t with
    | false => exact .plain row shown
    | true => exact .lowered row shown
  · have behind (high : Bool) : picked false (if high then Text.of "'" else []) = [] := by
      cases high <;> rfl
    have again : picked false (rewritten (startsLow t) (endsHigh t) (picked false t)) = picked false t := by
      have rest := picked_flatMap noMarks (if endsHigh t then Text.of "'" else [])
      rw [behind, List.append_nil] at rest
      cases low : startsLow t with
      | false => exact rest
      | true => exact rest
    rw [degreesOf_eq, degreesOf_eq, startsLow_rewritten _ _ present noMarks,
      endsHigh_rewritten _ _ present noMarks, again]

theorem degreesOf_eq_nil {t : Text} (absent : ¬HasItem t) : degreesOf t = [] := by
  have nothing : picked false t = [] := by
    rw [List.eq_nil_iff_forall_not_mem]
    exact fun item member => absent ⟨item.2, mem_of_mem_picked member⟩
  rw [degreesOf_eq, nothing]
  rfl

end Step.Draft

namespace Notation

open Step.Draft Degree

variable {ctx : Context} {word : Text}

structure IsDegreeWord (ctx : Context) (word : Text) : Prop where
  synth : ctx.category = .synth
  single : .char '/' ∉ undotted word
  free : ctx.LeavesDegrees (undotted word)
  unasked : chordRequest? (undotted word) = none

theorem IsDegreeWord.isKnown (degrees : IsDegreeWord ctx word) {length : Int} {chord : Text}
    (clean : (stepOf ctx word length chord).error = none) :
    ∀ degree ∈ degreesOf (undotted word), IsKnown degree := by
  obtain ⟨synth, single, free, unasked⟩ := degrees
  rw [stepOf, finish_error, draftOf, Text.splitOn_of_notMem single, List.foldl_cons, List.foldl_nil] at clean
  have present : undotted word ≠ [] := by
    intro empty
    rw [markIfError_of_clean clean, addPartText, if_pos empty] at clean
    exact error_fail_ne_none _ _ clean
  rw [markIfError_of_clean clean, addPartText_of_leavesDegrees synth free unasked present, addDegrees] at clean
  rw [markIfError_of_clean clean] at clean
  exact isKnown_of_clean clean

theorem letters_of_isKnown {t : Text} (known : ∀ degree ∈ degreesOf t, IsKnown degree) :
    ∀ c ∈ t, c ∈ Text.of ".#'1234567" := by
  intro c member
  have listed : digits ⊆ Text.of ".#'1234567" := by decide
  by_cases noMark : isMark c = false
  · obtain ⟨raised, inside⟩ := exists_mem_picked member noMark false
    obtain ⟨high, here⟩ := exists_signed (startsLow t) (endsHigh t) inside
    rcases item_of_isKnown noMark (known _ (degreesOf_eq t ▸ here)) with ⟨-, rfl⟩ | digit
    · decide
    · exact listed digit
  · have mark : isMark c = true := by simpa using noMark
    simp only [isMark, Bool.or_eq_true, decide_eq_true_eq] at mark
    rcases mark with rfl | rfl <;> decide

/-- A word of degrees without an error has only points, digits and marks, and its degrees are none or those of a
text in the grammar. It is in the grammar itself exactly if each of its marks is used. -/
theorem accepted_degrees (degrees : IsDegreeWord ctx word) {length : Int} {chord : Text}
    (clean : (stepOf ctx word length chord).error = none) :
    (∀ c ∈ undotted word, c ∈ Text.of ".#'1234567") ∧
      (InGrammar (undotted word) ↔ UsesMarks (undotted word)) ∧
      (¬HasItem (undotted word) ∧ degreesOf (undotted word) = [] ∨
        ∃ other, InGrammar other ∧ degreesOf other = degreesOf (undotted word)) := by
  have known := degrees.isKnown clean
  have letters := letters_of_isKnown known
  refine ⟨letters, inGrammar_iff_usesMarks letters, ?_⟩
  by_cases item : HasItem (undotted word)
  · exact .inr (exists_inGrammar known item)
  · exact .inl ⟨item, degreesOf_eq_nil item⟩

theorem accepted_degrees_of_loweredRow :
    IsDegreeWord { octave := 5 } "'6#13-" ∧ (stepOf { octave := 5 } "'6#13-" 12 []).error = none ∧
      UsesMarks "'6#13" := by
  have degrees : IsDegreeWord { octave := 5 } "'6#13-" :=
    ⟨rfl, by decide, ⟨⟨rfl, rfl⟩, rfl, by decide +kernel⟩, by decide +kernel⟩
  have clean : (stepOf { octave := 5 } "'6#13-" 12 []).error = none := by decide +kernel
  have plain : undotted "'6#13-" = Text.of "'6#13" := by decide
  have row : IsRow (Text.of "6#13") := .digit (by decide) (.sharp (by decide) (.digit (by decide) .done))
  have grammar : InGrammar (Text.of "'6#13") := .lowered row ⟨.char '6', by decide, by decide⟩
  have used := (accepted_degrees degrees clean).2.1
  rw [plain] at used
  exact ⟨degrees, clean, used.1 grammar⟩

theorem danglingSharp_accepted :
    IsDegreeWord { octave := 5 } "1#" ∧ (stepOf { octave := 5 } "1#" 12 []).error = none ∧
      ¬InGrammar (undotted "1#") := by
  refine ⟨⟨rfl, by decide, ⟨⟨rfl, rfl⟩, rfl, by decide +kernel⟩, by decide +kernel⟩, by decide +kernel,
    fun grammar => ?_⟩
  have uses := (inGrammar_iff_usesMarks (by decide)).1 grammar
  obtain ⟨digit, known, rest, here | ⟨-, here⟩⟩ := uses.sharps (Text.of "1") [] (by decide)
  · cases here
  · cases here

end Notation

end ScoreScript
