import Mathlib.Order.Bounds.Basic
import ScoreScript.Proofs.DegreeTexts
import ScoreScript.Proofs.Tables

set_option autoImplicit false

namespace ScoreScript

structure Note where
  pitch : Int
  place : Int

namespace Note

def IsInRange (note : Note) : Prop :=
  IsData note.pitch ∧ Degree.lowestPlace ≤ note.place ∧ note.place ≤ Degree.highestPlace

def fault? (note : Note) : Option Diagnostic.Kind :=
  if note.place < Degree.lowestPlace ∨ note.pitch < 0 then some .noteTooLow
  else if Degree.highestPlace < note.place ∨ 127 < note.pitch then some .noteTooHigh
  else none

theorem fault?_cases {note : Note} {kind : Diagnostic.Kind} (violates : note.fault? = some kind) :
    kind = .noteTooLow ∨ kind = .noteTooHigh := by
  unfold fault? at violates
  split_ifs at violates
  · exact .inl (Option.some.inj violates).symm
  · exact .inr (Option.some.inj violates).symm

theorem fault?_eq_none_iff {note : Note} : note.fault? = none ↔ note.IsInRange := by
  unfold fault? IsInRange IsData
  split_ifs <;> simp <;> omega

theorem fault?_of_not_isInRange {note : Note} (violates : ¬note.IsInRange) :
    note.fault? =
      some (if note.place < Degree.lowestPlace ∨ note.pitch < 0 then .noteTooLow else .noteTooHigh) := by
  have fails := mt fault?_eq_none_iff.1 violates
  unfold fault? at fails ⊢
  split_ifs with low high
  · rfl
  · rfl
  · exact absurd (by rw [if_neg low, if_neg high]) fails

theorem findSome?_fault? {before after : List Note} {note : Note} (early : ∀ other ∈ before, other.IsInRange)
    (violates : ¬note.IsInRange) : (before ++ note :: after).findSome? fault? =
      some (if note.place < Degree.lowestPlace ∨ note.pitch < 0 then .noteTooLow else .noteTooHigh) := by
  have free : before.findSome? fault? = none := by
    rw [List.findSome?_eq_none_iff]
    exact fun other member => fault?_eq_none_iff.2 (early other member)
  rw [List.findSome?_append, free, Option.none_or, List.findSome?_cons, fault?_of_not_isInRange violates]

/-- Degrees as notes after another note: each goes up by the least number of octaves that lift it above the
note before it. -/
inductive Rises (base : Int) : Option Int → List Nat → List Note → Prop
  | nil {previous : Option Int} : Rises base previous [] []
  | cons {previous : Option Int} {n octaves : Nat} {row : List Nat} {notes : List Note}
    (least : IsLeast {j : ℕ | ∀ pitch ∈ previous, pitch < base + n + 12 * j} octaves)
    (later : Rises base (some (base + n + 12 * octaves)) row notes) :
    Rises base previous (n :: row)
      (⟨base + n + 12 * octaves, Degree.staffPlace n + 7 * octaves⟩ :: notes)

def lastPitch? (notes : List Note) : Option Int := notes.getLast?.map pitch

theorem lastPitch?_append (notes more : List Note) :
    lastPitch? (notes ++ more) = (lastPitch? more).or (lastPitch? notes) := by
  simp only [lastPitch?, List.getLast?_append]
  cases more.getLast? <;> rfl

theorem lastPitch?_cons (note : Note) (more : List Note) :
    lastPitch? (note :: more) = (lastPitch? more).or (some note.pitch) :=
  lastPitch?_append [note] more

theorem Rises.length_eq {base : Int} {previous : Option Int} {row : List Nat} {notes : List Note}
    (rises : Rises base previous row notes) : notes.length = row.length := by
  induction rises with
  | nil => rfl
  | cons _ _ ih => rw [List.length_cons, List.length_cons, ih]

theorem Rises.append {base : Int} {previous : Option Int} {row other : List Nat} {notes more : List Note}
    (rises : Rises base previous row notes) (later : Rises base ((lastPitch? notes).or previous) other more) :
    Rises base previous (row ++ other) (notes ++ more) := by
  induction rises with
  | nil => exact later
  | cons least _ ih =>
    rw [lastPitch?_cons, Option.or_assoc, Option.some_or] at later
    exact .cons least (ih later)

end Note

namespace Step.Draft

open Degree Note

theorem isLeast_octavesAbove (previous : Option Int) (pitch : Int) :
    IsLeast {j : ℕ | ∀ last ∈ previous, last < pitch + 12 * j} (octavesAbove previous pitch) := by
  cases previous with
  | none => exact ⟨by simp, fun _ _ => Nat.zero_le _⟩
  | some last =>
    refine ⟨by simpa using lt_octavesAbove last pitch, fun j above => ?_⟩
    have above : last < pitch + 12 * j := above last rfl
    simp only [octavesAbove]
    split <;> omega

structure Follows (d : Draft) (notes : List Note) : Prop where
  error : d.error = notes.findSome? fault?
  pitches : d.error = none → d.pitches = notes.map pitch
  places : d.error = none → d.staffPlaces = notes.map place
  kind : d.error = none → notes ≠ [] → d.kind = .synth

variable {d : Draft} {notes : List Note} {octave transposition : Int}

theorem follows_of_error {kind : Diagnostic.Kind} (wrong : d.error = some kind)
    (first : notes.findSome? fault? = some kind) : d.Follows notes := by
  refine ⟨wrong.trans first.symm, fun clean => ?_, fun clean => ?_, fun clean => ?_⟩
  all_goals
    rw [wrong] at clean
    cases clean

theorem Follows.addDegree (follows : d.Follows notes) {degree : Text} {n : Nat}
    (known : index? degree = some n) :
    ∃ octaves : Nat, IsLeast {j : ℕ | ∀ pitch ∈ lastPitch? notes,
        pitch < (octave - 1) * 12 + transposition + n + 12 * j} octaves ∧
      (d.addDegree octave transposition degree).Follows (notes ++
        [⟨(octave - 1) * 12 + transposition + n + 12 * octaves, staffPlace n + 7 * octaves⟩]) := by
  have sounds : degree ≠ "." := by
    rintro rfl
    cases known
  refine ⟨_, isLeast_octavesAbove _ _, ?_⟩
  set base := (octave - 1) * 12 + transposition
  set octaves := octavesAbove (lastPitch? notes) (base + n)
  set note : Note := ⟨base + n + 12 * octaves, staffPlace n + 7 * octaves⟩
  rw [addDegree_of_index sounds known]
  cases failed : d.error with
  | some kind =>
    -- the mark of the error may stand in place of the notes, but the first error stays
    have first : (notes ++ [note]).findSome? fault? = some kind := by
      rw [List.findSome?_append, ← follows.error, failed, Option.some_or]
    split
    · exact follows_of_error failed first
    · exact follows_of_error (by simp [fail, withDegree, addNote, failed]) first
  | none =>
    have written := follows.pitches failed
    have moved : (octave - 1) * 12 + (n : Int) + transposition = base + n := by omega
    have pitches : (d.withDegree octave transposition n).pitches = (notes ++ [note]).map pitch := by
      simp only [withDegree, addNote, moved, written, List.getLast?_map, List.map_append, List.map_singleton]
      rfl
    have places : (d.withDegree octave transposition n).staffPlaces = (notes ++ [note]).map place := by
      simp only [withDegree, addNote, moved, written, follows.places failed, List.getLast?_map,
        List.map_append, List.map_singleton]
      rfl
    have ranged : (d.withDegree octave transposition n).rangeError? = note.fault? := by
      simp [rangeError?, fault?, pitches, places]
    have first : (notes ++ [note]).findSome? fault? = note.fault? := by
      rw [List.findSome?_append, ← follows.error, failed, Option.none_or, List.findSome?_singleton]
    rw [ranged]
    cases violates : note.fault? with
    | none =>
      have clean := first.trans violates
      exact ⟨failed.trans clean.symm, fun _ => pitches, fun _ => places, fun _ _ => rfl⟩
    | some kind =>
      exact follows_of_error (by simp [fail, withDegree, addNote, failed]) (first.trans violates)

theorem Follows.foldl_addDegree (follows : d.Follows notes) {degrees : List Text} {row : List Nat}
    (known : degrees.map index? = row.map some) :
    ∃ more, Rises ((octave - 1) * 12 + transposition) (lastPitch? notes) row more ∧
      (degrees.foldl (Draft.addDegree octave transposition) d).Follows (notes ++ more) := by
  induction row generalizing d notes degrees with
  | nil =>
    obtain rfl := List.map_eq_nil_iff.1 known
    exact ⟨[], .nil, by rwa [List.append_nil]⟩
  | cons n row ih =>
    obtain ⟨degree, later, rfl, here, known⟩ := List.map_eq_cons_iff.1 known
    obtain ⟨octaves, least, follows⟩ := follows.addDegree here
    obtain ⟨more, rises, follows⟩ := ih follows known
    rw [lastPitch?_append] at rises
    exact ⟨_ :: more, .cons least rises, by simpa using follows⟩

theorem Follows.markIfError (follows : d.Follows notes) (word : Text) :
    (d.markIfError word).Follows notes := by
  cases failed : d.error with
  | none => simpa [Draft.markIfError, failed] using follows
  | some kind =>
    have first := follows.error.symm.trans failed
    obtain ⟨note, -, violates⟩ := List.exists_of_findSome?_eq_some first
    refine follows_of_error ?_ first
    rcases fault?_cases violates with rfl | rfl <;> simp [Draft.markIfError, failed, mark]

theorem Follows.addDegrees (follows : d.Follows notes) {word : Text} {row : List Nat}
    (written : Writes word row) :
    ∃ more, Rises ((octave - 1) * 12 + transposition) (lastPitch? notes) row more ∧
      (d.addDegrees word octave transposition).Follows (notes ++ more) := by
  obtain ⟨more, rises, follows⟩ := follows.foldl_addDegree (index?_degreesOf written)
  exact ⟨more, rises, follows.markIfError word⟩

end Step.Draft

namespace Notation

open Step Draft Degree Note

variable {ctx : Context} {chord part : Text}

structure Context.LeavesDegrees (ctx : Context) (part : Text) : Prop where
  unnamed : ctx.IsUnnamed part
  plain : ctx.ornaments.find? part = none
  noChord : ctx.chords.knows part = false

theorem chordRequest?_of_letters (letters : ∀ c ∈ part, c ∈ Degree.letters) :
    chordRequest? part = none := by
  have noC : CodePoint.char 'c' ∉ part := fun member => absurd (letters _ member) (by decide)
  have noR : CodePoint.char 'r' ∉ part := fun member => absurd (letters _ member) (by decide)
  have noChord : part ≠ "chord" := by
    rintro rfl
    exact noC (by decide)
  have noRoot : part ≠ "root" := by
    rintro rfl
    exact noR (by decide)
  have noCall : chordCall.isPrefixOf part = false := by
    by_contra called
    have prefixed := List.isPrefixOf_iff_prefix.1 (Bool.of_not_eq_false called)
    exact noC (prefixed.subset (by decide))
  rw [chordRequest?, if_neg noChord, if_neg noRoot, noCall]
  rfl

theorem addPartText_of_leavesDegrees (synth : ctx.category = .synth) (free : ctx.LeavesDegrees part)
    (unasked : chordRequest? part = none) (present : part ≠ []) (d : Draft) :
    addPartText ctx chord d part = d.addDegrees part ctx.octave ctx.transposition := by
  obtain ⟨⟨noPitch, noSample⟩, plain, noChord⟩ := free
  have noSpelling : ctx.chords.spell part .whole = [] := by
    have none : ctx.chords.notes part = [] := by simpa [ChordTable.knows] using noChord
    simp [ChordTable.spell, none]
  have resolved : Part.resolve ctx part chord = .degrees part := by
    simp [Part.resolve, noPitch, noSample, plain, Part.ofCategory, synth, unasked, Part.ofDegrees, noSpelling]
  rw [addPartText, if_neg present, resolved]
  rfl

theorem addPartText_of_writes (synth : ctx.category = .synth) (free : ctx.LeavesDegrees part) {row : List Nat}
    (written : Writes part row) (d : Draft) :
    addPartText ctx chord d part = d.addDegrees part ctx.octave ctx.transposition :=
  addPartText_of_leavesDegrees synth free (chordRequest?_of_letters written.letters) written.ne_nil d

theorem follows_foldl_addPartText (synth : ctx.category = .synth) (chord : Text) {parts : List Text}
    {rows : List (List Nat)} (written : List.Forall₂ Writes parts rows)
    (free : ∀ part ∈ parts, ctx.LeavesDegrees part) {d : Draft} {notes : List Note}
    (follows : d.Follows notes) :
    ∃ more, Rises ((ctx.octave - 1) * 12 + ctx.transposition) (lastPitch? notes) rows.flatten more ∧
      (parts.foldl (addPartText ctx chord) d).Follows (notes ++ more) := by
  induction written generalizing d notes with
  | nil => exact ⟨[], .nil, by rwa [List.append_nil]⟩
  | cons here later ih =>
    obtain ⟨freeHere, freeLater⟩ := List.forall_mem_cons.1 free
    obtain ⟨more, rises, follows⟩ := follows.addDegrees here
    rw [← addPartText_of_writes synth freeHere here] at follows
    obtain ⟨others, risesLater, follows⟩ := ih freeLater follows
    rw [lastPitch?_append] at risesLater
    exact ⟨more ++ others, rises.append risesLater, by rwa [List.append_assoc] at follows⟩

theorem inversion_nil (name : Text) :
    (∀ c ∈ (ChordTable.inversion name).1, c ∈ name) ∧ (ChordTable.inversion name).2 [] = [] := by
  unfold ChordTable.inversion
  split
  · exact ⟨fun c member => List.mem_cons_of_mem _ member, rfl⟩
  · split
    · exact ⟨fun c member => List.dropLast_subset _ member, rfl⟩
    · exact ⟨fun c member => member, rfl⟩

theorem knows_standardChords (letters : ∀ c ∈ part, c ∈ Degree.letters) :
    standardChords.knows part = false := by
  have named : ∀ entry ∈ standardChords, ∃ c ∈ entry.1, c ∉ Degree.letters := by decide +kernel
  have absent {base : Text} (within : ∀ c ∈ base, c ∈ part) :
      Table.find? standardChords base = none := by
    by_contra known
    obtain ⟨degrees, found⟩ := Option.ne_none_iff_exists'.1 known
    obtain ⟨c, member, noLetter⟩ := named _ (Table.mem_of_find? found)
    exact noLetter (letters c (within c member))
  obtain ⟨within, nothing⟩ := inversion_nil part
  have silent : standardChords.notes part = [] := by
    simp only [ChordTable.notes, absent within]
    exact nothing
  rw [ChordTable.knows, silent]
  rfl

end Notation

namespace Step

open Draft Note

structure Sounds (s : Step) (notes : List Note) : Prop where
  sound_iff : s.error = none ↔ ∀ note ∈ notes, note.IsInRange
  sounds : s.error = none →
    s.kind = .synth ∧ s.pitches = notes.map pitch ∧ s.staffPlaces = notes.map place
  fails : ∀ before note after, notes = before ++ note :: after → (∀ note ∈ before, note.IsInRange) →
    ¬note.IsInRange → s.pitches = [errorPitch] ∧
      s.error = some (if note.place < Degree.lowestPlace ∨ note.pitch < 0 then .noteTooLow else .noteTooHigh)

theorem sounds_of_follows {d : Draft} {notes : List Note} (follows : d.Follows notes) (present : notes ≠ [])
    (word : Text) (velocity length : Int) : ((d.markIfError word).finish velocity length).Sounds notes := by
  have marked := follows.markIfError word
  have inRange : (d.markIfError word).error = none ↔ ∀ note ∈ notes, note.IsInRange := by
    rw [marked.error, List.findSome?_eq_none_iff]
    simp only [fault?_eq_none_iff]
  refine ⟨by rw [finish_error, inRange], fun clean => ?_, fun before note after split early violates => ?_⟩
  · rw [finish_error] at clean
    have synth := marked.kind clean present
    have noDrum : ¬((d.markIfError word).kind = .drum ∧ (d.markIfError word).error.isNone = true) := by
      rw [synth]
      simp
    unfold finish
    dsimp only
    rw [if_neg noDrum]
    exact ⟨synth, marked.pitches clean, marked.places clean⟩
  · subst split
    have first := @findSome?_fault? before after note early violates
    have unmarked : d.markIfError word = d.mark word := by simp [Draft.markIfError, follows.error, first]
    have failed := marked.error.trans first
    have noHits : ¬((d.markIfError word).kind = .drum ∧ (d.markIfError word).error = none) := by
      simp [failed]
    exact ⟨by rw [finish_pitches, if_neg noHits, unmarked, mark_pitches], by rw [finish_error, failed]⟩

end Step

namespace Notation

open Step Degree Note

theorem exists_of_mem_left {α β : Type} {related : α → β → Prop} {items : List α} {others : List β}
    (pairs : List.Forall₂ related items others) {item : α} (member : item ∈ items) :
    ∃ other ∈ others, related item other := by
  induction pairs with
  | nil => cases member
  | cons here _ ih =>
    rcases List.mem_cons.1 member with rfl | later
    · exact ⟨_, List.mem_cons_self .., here⟩
    · obtain ⟨other, inLater, there⟩ := ih later
      exact ⟨other, List.mem_cons_of_mem _ inLater, there⟩

theorem stepOf_degrees {ctx : Context} (synth : ctx.category = .synth) {word : Text} {rows : List (List Nat)}
    (written : List.Forall₂ Writes ((undotted word).splitOn (.char '/')) rows)
    (unnamed : ∀ part ∈ (undotted word).splitOn (.char '/'),
      ctx.IsUnnamed part ∧ ctx.ornaments.find? part = none)
    (chords : ctx.chords = standardChords ∨
      ∀ part ∈ (undotted word).splitOn (.char '/'), ctx.chords.knows part = false)
    (length : Int) (chord : Text) :
    ∃ notes, Rises ((ctx.octave - 1) * 12 + ctx.transposition) none rows.flatten notes ∧
      (stepOf ctx word length chord).Sounds notes := by
  have free : ∀ part ∈ (undotted word).splitOn (.char '/'), ctx.LeavesDegrees part := by
    intro part member
    obtain ⟨noPitch, plain⟩ := unnamed part member
    refine ⟨noPitch, plain, chords.elim (fun standard => ?_) fun noChord => noChord part member⟩
    obtain ⟨row, -, here⟩ := exists_of_mem_left written member
    rw [standard]
    exact knows_standardChords here.letters
  have start : Draft.Follows {} [] := ⟨rfl, fun _ => rfl, fun _ => rfl, fun _ absent => absurd rfl absent⟩
  obtain ⟨notes, rises, follows⟩ := follows_foldl_addPartText synth chord written free start
  have present : notes ≠ [] := by
    obtain ⟨part, member⟩ := List.exists_mem_of_ne_nil _ (List.splitOn_ne_nil (.char '/') (undotted word))
    obtain ⟨row, inRows, here⟩ := exists_of_mem_left written member
    obtain ⟨n, inRow⟩ := List.exists_mem_of_ne_nil _ here.row_ne_nil
    rintro rfl
    have none : rows.flatten = [] := List.eq_nil_of_length_eq_zero rises.length_eq.symm
    exact List.ne_nil_of_mem (List.mem_flatten.2 ⟨row, inRows, inRow⟩) none
  exact ⟨notes, rises, sounds_of_follows follows present _ _ _⟩

def openChord : Text := "'6/31"

theorem stepOf_degrees_of_openChord : ∃ notes, Rises 48 none [9, 16, 12] notes ∧
    (stepOf { octave := 5 } openChord 12 []).Sounds notes := by
  have sixth : Row "'6" [9] := show Row (Text.of "'" ++ .char '6' :: []) [9] from
    .degree (by decide) (by decide) (by decide) (.done (by simp))
  have first : Row "1" [0] := show Row ([] ++ .char '1' :: []) [0] from
    .degree (by simp) (by decide) (by decide) (.done (by simp))
  have both : Row "31" [4, 0] := show Row ([] ++ .char '3' :: Text.of "1") [4, 0] from
    .degree (by simp) (by decide) (by decide) first
  have written : List.Forall₂ Writes ((undotted openChord).splitOn (.char '/')) [[9], [16, 12]] := by
    have parts : (undotted openChord).splitOn (.char '/') = [Text.of "'6", Text.of "31"] := by
      decide +kernel
    rw [parts]
    exact .cons (.low sixth (by decide) (by decide)) (.cons (.middle both (by decide) (by decide)) .nil)
  let ctx : Context := { octave := 5 }
  exact @stepOf_degrees ctx rfl openChord _ written (fun _ _ => ⟨⟨rfl, rfl⟩, rfl⟩) (.inl rfl) 12 []

end Notation

end ScoreScript
