import ScoreScript.Proofs.Transposed

set_option autoImplicit false

namespace ScoreScript

namespace Degree

def isMark (c : CodePoint) : Bool := c = '#' || c = '\''

def nameAfter (marks : Text) (digit : CodePoint) : Text :=
  (if .char '#' ∈ marks then Text.of "#" else []) ++ [digit]

inductive Row : Text → List Nat → Prop
  | done {marks : Text} (areMarks : ∀ c ∈ marks, isMark c = true) : Row marks []
  | degree {marks rest : Text} {digit : CodePoint} {n : Nat} {row : List Nat}
    (areMarks : ∀ c ∈ marks, isMark c = true) (noMark : isMark digit = false)
    (known : octave[n]? = some (nameAfter marks digit)) (later : Row rest row) :
    Row (marks ++ digit :: rest) (n :: row)

def startsLow (t : Text) : Bool := t.head? = some '\'' || (Text.of "#'").isPrefixOf t

def endsHigh (t : Text) : Bool := t.getLast? = some '\''

/-- The degrees that a text writes, in semitones above the lowest one. A quote in front lowers all of them by
an octave, a quote at the end raises the first. -/
inductive Writes (t : Text) : List Nat → Prop
  | low {n : Nat} {row : List Nat} (written : Row t (n :: row)) (front : startsLow t = true)
    (free : endsHigh t = false) : Writes t (n :: row)
  | middle {n : Nat} {row : List Nat} (written : Row t (n :: row)) (free : startsLow t = false)
    (free' : endsHigh t = false) : Writes t ((12 + n) :: row.map (12 + ·))
  | high {n : Nat} {row : List Nat} (written : Row t (n :: row)) (free : startsLow t = false)
    (final : endsHigh t = true) : Writes t ((24 + n) :: row.map (12 + ·))

def letters : Text := "#'1234567"

theorem Row.letters {t : Text} {row : List Nat} (written : Row t row) : ∀ c ∈ t, c ∈ Degree.letters := by
  have marked {marks : Text} (areMarks : ∀ c ∈ marks, isMark c = true) :
      ∀ c ∈ marks, c ∈ Degree.letters := by
    intro c member
    have isMark : c = .char '#' ∨ c = .char '\'' := by simpa [isMark] using areMarks c member
    rcases isMark with rfl | rfl <;> decide
  induction written with
  | done areMarks => exact marked areMarks
  | degree areMarks _ known _ ih =>
    have each : ∀ name ∈ octave, ∀ c ∈ name, c ∈ Degree.letters := by decide
    have named := each _ (List.mem_of_getElem? known)
    refine List.forall_mem_append.2 ⟨marked areMarks, List.forall_mem_cons.2 ⟨?_, ih⟩⟩
    exact named _ (List.mem_append_right _ (List.mem_singleton_self _))

theorem Writes.row {t : Text} {row : List Nat} (written : Writes t row) : ∃ n rest, Row t (n :: rest) := by
  cases written with
  | low written | middle written | high written => exact ⟨_, _, written⟩

theorem Writes.letters {t : Text} {row : List Nat} (written : Writes t row) :
    ∀ c ∈ t, c ∈ Degree.letters := by
  obtain ⟨n, rest, written⟩ := written.row
  exact written.letters

theorem Writes.row_ne_nil {t : Text} {row : List Nat} (written : Writes t row) : row ≠ [] := by
  cases written <;> exact List.cons_ne_nil _ _

theorem Writes.ne_nil {t : Text} {row : List Nat} (written : Writes t row) : t ≠ [] := by
  obtain ⟨n, rest, written⟩ := written.row
  cases written
  simp

theorem index?_octave {n : Nat} {name : Text} (known : octave[n]? = some name) :
    index? (lowered name) = some n ∧ index? name = some (12 + n) ∧ index? (raised name) = some (24 + n) := by
  have each : ∀ n < 12, ∀ name ∈ octave[n]?, index? (lowered name) = some n ∧
      index? name = some (12 + n) ∧ index? (raised name) = some (24 + n) := by decide +kernel
  exact each n (List.getElem?_eq_some_iff.1 known).1 name known

end Degree

namespace Step.Draft

open Degree

def signed (sharp lower higher : Bool) (digit : CodePoint) : Text :=
  let sign (written : Bool) (c : CodePoint) : Text := if written then [c] else []
  sign sharp '#' ++ sign lower '\'' ++ [digit] ++ sign higher '\''

theorem go_marks {marks : Text} (areMarks : ∀ c ∈ marks, isMark c = true) (lower sharp higher : Bool)
    (rest : Text) : degreesOf.go lower sharp higher (marks ++ rest) =
      degreesOf.go lower (sharp || decide (.char '#' ∈ marks)) higher rest := by
  induction marks generalizing sharp with
  | nil => simp
  | cons c marks ih =>
    obtain ⟨here, later⟩ := List.forall_mem_cons.1 areMarks
    rw [List.cons_append, degreesOf.go]
    by_cases isSharp : c = .char '#'
    · subst isSharp
      rw [if_pos rfl, ih later]
      simp
    · have isQuote : c = .char '\'' := by simpa [isMark, isSharp] using here
      subst isQuote
      rw [if_neg (by decide), if_pos rfl, ih later]
      simp [show (CodePoint.char '#') ≠ .char '\'' by decide]

theorem go_degree {marks : Text} (areMarks : ∀ c ∈ marks, isMark c = true) {digit : CodePoint}
    (noMark : isMark digit = false) (lower higher : Bool) (rest : Text) :
    degreesOf.go lower false higher (marks ++ digit :: rest) =
      signed (decide (.char '#' ∈ marks)) lower higher digit :: degreesOf.go lower false false rest := by
  have plain : digit ≠ .char '#' ∧ digit ≠ .char '\'' := by simpa [isMark] using noMark
  rw [go_marks areMarks, degreesOf.go, if_neg plain.1, if_neg plain.2, Bool.false_or]
  rfl

theorem signed_eq (marks : Text) {digit : CodePoint} (noMark : isMark digit = false) :
    signed (decide (.char '#' ∈ marks)) true false digit = lowered (nameAfter marks digit) ∧
      signed (decide (.char '#' ∈ marks)) false false digit = nameAfter marks digit ∧
      signed (decide (.char '#' ∈ marks)) false true digit = raised (nameAfter marks digit) := by
  have plain : digit ≠ .char '#' := by
    rintro rfl
    cases noMark
  have simple : lowered [digit] = [.char '\'', digit] := by
    unfold lowered
    split
    next same => exact absurd (List.cons.inj same).1 plain
    next => rfl
  by_cases sharp : CodePoint.char '#' ∈ marks
  · have name : nameAfter marks digit = [.char '#', digit] := by rw [nameAfter, if_pos sharp]; rfl
    rw [name, decide_eq_true sharp]
    exact ⟨rfl, rfl, rfl⟩
  · have name : nameAfter marks digit = [digit] := by rw [nameAfter, if_neg sharp]; rfl
    rw [name, decide_eq_false sharp, simple]
    exact ⟨rfl, rfl, rfl⟩

theorem index?_signed {marks : Text} {digit : CodePoint} (noMark : isMark digit = false) {n : Nat}
    (known : octave[n]? = some (nameAfter marks digit)) :
    index? (signed (decide (.char '#' ∈ marks)) true false digit) = some n ∧
      index? (signed (decide (.char '#' ∈ marks)) false false digit) = some (12 + n) ∧
      index? (signed (decide (.char '#' ∈ marks)) false true digit) = some (24 + n) := by
  obtain ⟨low, middle, high⟩ := signed_eq marks noMark
  rw [low, middle, high]
  exact index?_octave known

theorem index?_go {t : Text} {row : List Nat} (written : Row t row) :
    (degreesOf.go true false false t).map index? = row.map some ∧
      (degreesOf.go false false false t).map index? = row.map fun n => some (12 + n) := by
  induction written with
  | done areMarks =>
    have nothing (lower : Bool) := go_marks areMarks lower false false []
    simp only [List.append_nil] at nothing
    rw [nothing, nothing]
    exact ⟨rfl, rfl⟩
  | degree areMarks noMark known _ ih =>
    obtain ⟨low, middle, -⟩ := index?_signed noMark known
    rw [go_degree areMarks noMark, go_degree areMarks noMark]
    exact ⟨by rw [List.map_cons, low, ih.1]; rfl, by rw [List.map_cons, middle, ih.2]; rfl⟩

theorem index?_degreesOf {t : Text} {row : List Nat} (written : Writes t row) :
    (degreesOf t).map index? = row.map some := by
  have split (t : Text) : degreesOf t = degreesOf.go (startsLow t) false (endsHigh t) t := rfl
  rw [split]
  cases written with
  | low written front free =>
    rw [front, free]
    exact (index?_go written).1
  | middle written free free' =>
    rw [free, free']
    rw [(index?_go written).2]
    simp
  | high written free final =>
    rw [free, final]
    cases written with
    | degree areMarks noMark known later =>
      rw [go_degree areMarks noMark, List.map_cons, (index?_signed noMark known).2.2, (index?_go later).2]
      simp

end Step.Draft

end ScoreScript
