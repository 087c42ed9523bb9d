import Mathlib.Data.List.Induction
import Mathlib.Tactic.SplitIfs
import ScoreScript.Notation.Word

set_option autoImplicit false

namespace ScoreScript

namespace Step

namespace Draft

@[simp] theorem fail_kind (d : Draft) (kind : Diagnostic.Kind) : (d.fail kind).kind = d.kind := rfl

@[simp] theorem fail_ornament (d : Draft) (kind : Diagnostic.Kind) :
    (d.fail kind).ornament = d.ornament := rfl

@[simp] theorem mark_kind (d : Draft) (word : Text) : (d.mark word).kind = d.kind := by
  unfold mark
  dsimp only
  split <;> rfl

@[simp] theorem mark_ornament (d : Draft) (word : Text) : (d.mark word).ornament = d.ornament := by
  unfold mark
  dsimp only
  split <;> rfl

@[simp] theorem markIfError_kind (d : Draft) (word : Text) : (d.markIfError word).kind = d.kind := by
  unfold markIfError
  split <;> simp

@[simp] theorem markIfError_ornament (d : Draft) (word : Text) :
    (d.markIfError word).ornament = d.ornament := by
  unfold markIfError
  split <;> simp

@[simp] theorem addLiteral_kind (d : Draft) (name : Text) (pitch : Int) (isDrum : Bool) :
    (d.addLiteral name pitch isDrum).kind = if isDrum then .drum else .synth := by
  cases isDrum <;> rfl

@[simp] theorem addLiteral_ornament (d : Draft) (name : Text) (pitch : Int) (isDrum : Bool) :
    (d.addLiteral name pitch isDrum).ornament = d.ornament := by
  cases isDrum <;> rfl

theorem addDrum_kind (d : Draft) (letter : CodePoint) :
    (d.addDrum letter).kind = if letter = '.' then d.kind else .drum := by
  unfold addDrum
  split <;> rfl

theorem addDrum_ornament (d : Draft) (letter : CodePoint) :
    (d.addDrum letter).ornament = d.ornament := by
  unfold addDrum
  split
  · rfl
  · cases drumNote? letter.toLower <;> rfl

theorem addDrums_kind (d : Draft) (letters : Text) :
    (d.addDrums letters).kind = if ∀ c ∈ letters, c = .char '.' then d.kind else .drum := by
  unfold addDrums
  induction letters generalizing d with
  | nil => simp
  | cons letter rest ih =>
    rw [List.foldl_cons, ih, addDrum_kind]
    by_cases point : letter = .char '.' <;> simp [point]

@[simp] theorem addDrums_ornament (d : Draft) (letters : Text) :
    (d.addDrums letters).ornament = d.ornament := by
  unfold addDrums
  induction letters generalizing d with
  | nil => rfl
  | cons letter rest ih => rw [List.foldl_cons, ih, addDrum_ornament]

theorem addDegree_kind (octave transposition : Int) (d : Draft) (degree : Text) :
    (d.addDegree octave transposition degree).kind = if degree = "." then .silence else .synth := by
  unfold addDegree
  split
  · rfl
  · cases Degree.index? degree with
    | none => rfl
    | some index =>
      dsimp only
      split <;> rfl

theorem addDegree_ornament (octave transposition : Int) (d : Draft) (degree : Text) :
    (d.addDegree octave transposition degree).ornament = d.ornament := by
  unfold addDegree
  split
  · rfl
  · cases Degree.index? degree with
    | none => rfl
    | some index =>
      dsimp only
      split <;> rfl

def degreesKind? (degrees : List Text) : Option Step.Kind :=
  degrees.getLast?.map fun (degree : Text) => if degree = "." then .silence else .synth

theorem foldl_addDegree_kind (octave transposition : Int) (d : Draft) (degrees : List Text) :
    (degrees.foldl (addDegree octave transposition) d).kind =
      (degreesKind? degrees).getD d.kind := by
  induction degrees using List.reverseRecOn with
  | nil => rfl
  | append_singleton earlier degree ih =>
    rw [List.foldl_append, List.foldl_cons, List.foldl_nil, addDegree_kind]
    simp [degreesKind?]

theorem foldl_addDegree_ornament (octave transposition : Int) (d : Draft) (degrees : List Text) :
    (degrees.foldl (addDegree octave transposition) d).ornament = d.ornament := by
  induction degrees generalizing d with
  | nil => rfl
  | cons degree rest ih => rw [List.foldl_cons, ih, addDegree_ornament]

@[simp] theorem addDegrees_kind (d : Draft) (word : Text) (octave transposition : Int) :
    (d.addDegrees word octave transposition).kind = (degreesKind? (degreesOf word)).getD d.kind := by
  rw [addDegrees, markIfError_kind, foldl_addDegree_kind]

@[simp] theorem addDegrees_ornament (d : Draft) (word : Text) (octave transposition : Int) :
    (d.addDegrees word octave transposition).ornament = d.ornament := by
  rw [addDegrees, markIfError_ornament, foldl_addDegree_ornament]

variable (d : Draft) (velocity length : Int)

@[simp] theorem finish_kind : (d.finish velocity length).kind = d.kind := by
  unfold finish
  dsimp only
  split <;> rfl

@[simp] theorem finish_ornament : (d.finish velocity length).ornament = d.ornament := by
  unfold finish
  dsimp only
  split <;> rfl

@[simp] theorem finish_length : (d.finish velocity length).length = max 1 length := by
  unfold finish
  dsimp only
  split <;> rfl

@[simp] theorem finish_velocity : (d.finish velocity length).velocity = velocity := by
  unfold finish
  dsimp only
  split <;> rfl

@[simp] theorem finish_error : (d.finish velocity length).error = d.error := by
  unfold finish
  dsimp only
  split <;> rfl

@[simp] theorem finish_tiesForward : (d.finish velocity length).tiesForward = false := by
  unfold finish
  dsimp only
  split <;> rfl

@[simp] theorem finish_tiesBackward : (d.finish velocity length).tiesBackward = false := by
  unfold finish
  dsimp only
  split <;> rfl

@[simp] theorem finish_messages : (d.finish velocity length).messages = [] := by
  unfold finish
  dsimp only
  split <;> rfl

end Draft

end Step

namespace Notation

def Part.kind? (ctx : Context) : Part → Option Step.Kind
  | .literal _ _ => some (if ctx.category = .drum then .drum else .synth)
  | .sample _ => some .sample
  | .drums letters => if ∀ c ∈ letters, c = .char '.' then none else some .drum
  | .text _ _ => some .text
  | .degrees word => Step.Draft.degreesKind? (Step.Draft.degreesOf word)
  | .ornament _ | .invalid _ _ => none

def partKinds (ctx : Context) (chord word : Text) : List Step.Kind :=
  (word.splitOn (.char '/')).filterMap fun part =>
    if part = [] then none else (Part.resolve ctx part chord).kind? ctx

theorem addPart_kind (ctx : Context) (d : Step.Draft) (part : Part) :
    (addPart ctx d part).kind = (part.kind? ctx).getD d.kind := by
  cases part with
  | literal name pitch => simp [addPart, Part.kind?]
  | sample name => rfl
  | ornament ornament => rfl
  | drums letters =>
    rw [addPart, Step.Draft.addDrums_kind, Part.kind?]
    split <;> rfl
  | text text isChord =>
    simp only [addPart, Part.kind?]
    split <;> rfl
  | degrees word => simp [addPart, Part.kind?]
  | invalid kind text => simp [addPart, Part.kind?]

theorem addPartText_kind (ctx : Context) (chord : Text) (d : Step.Draft) (part : Text) :
    (addPartText ctx chord d part).kind =
      (if part = [] then none else (Part.resolve ctx part chord).kind? ctx).getD d.kind := by
  unfold addPartText
  split
  · rfl
  · exact addPart_kind ..

theorem draftOf_kind (ctx : Context) (chord word : Text) :
    (draftOf ctx chord word).kind = (partKinds ctx chord word).getLast?.getD .silence := by
  rw [draftOf, Step.Draft.markIfError_kind, partKinds]
  induction word.splitOn (.char '/') using List.reverseRecOn with
  | nil => rfl
  | append_singleton parts part ih =>
    rw [List.foldl_append, List.foldl_cons, List.foldl_nil, addPartText_kind, ih,
      List.filterMap_append]
    split
    next empty => simp [empty]
    next present => cases set : (Part.resolve ctx part chord).kind? ctx <;> simp [present, set]

theorem stepOf_kind (ctx : Context) (word : Text) (length : Int) (chord : Text) :
    (stepOf ctx word length chord).kind =
      (partKinds ctx chord (undotted word)).getLast?.getD .silence := by
  rw [stepOf, Step.Draft.finish_kind, draftOf_kind]

theorem addPart_ornament (ctx : Context) (d : Step.Draft) (part : Part) :
    (addPart ctx d part).ornament =
      match part with
      | .ornament ornament => ornament
      | _ => d.ornament := by
  cases part with
  | text text isChord =>
    simp only [addPart]
    split <;> rfl
  | literal => simp [addPart]
  | degrees => simp [addPart]
  | drums => simp [addPart]
  | invalid => simp [addPart]
  | sample => rfl
  | ornament => rfl

def Part.isNamed : Part → Bool
  | .literal _ _ | .sample _ | .ornament _ => true
  | .drums _ | .text _ _ | .degrees _ | .invalid _ _ => false

theorem Part.isNamed_ofCategory (ctx : Context) (part chord : Text) :
    (Part.ofCategory ctx part chord).isNamed = false := by
  unfold Part.ofCategory
  cases ctx.category with
  | synth =>
    dsimp only
    split
    next request _ =>
      cases request with
      | none => rfl
      | some extent =>
        dsimp only [Part.ofRequest]
        split_ifs <;> rfl
    next => rfl
  | drum | sample | text | chord => rfl

theorem Part.resolve_of_not_synth {ctx : Context} (other : ctx.category ≠ .synth) (part chord chord' : Text) :
    Part.resolve ctx part chord = Part.resolve ctx part chord' := by
  unfold Part.resolve Part.ofCategory
  cases category : ctx.category with
  | synth => exact absurd category other
  | drum | sample | text | chord => rfl

theorem draftOf_of_not_synth {ctx : Context} (other : ctx.category ≠ .synth) (chord chord' word : Text) :
    draftOf ctx chord word = draftOf ctx chord' word := by
  have parts : addPartText ctx chord = addPartText ctx chord' := by
    funext draft part
    rw [addPartText, addPartText, Part.resolve_of_not_synth other]
  rw [draftOf, draftOf, parts]

theorem find?_of_resolve {ctx : Context} {part chord : Text} {ornament : Option Ornament}
    (resolved : Part.resolve ctx part chord = .ornament ornament) :
    ctx.ornaments.find? part = some ornament := by
  unfold Part.resolve at resolved
  split at resolved
  · cases resolved
  · split at resolved
    · cases resolved
    · split at resolved
      next found => rw [found]; cases resolved; rfl
      next =>
        have unnamed := Part.isNamed_ofCategory ctx part chord
        rw [resolved] at unnamed
        cases unnamed

theorem foldl_addPartText_ornament {ctx : Context} {chord : Text} {ornament : Ornament}
    (parts : List Text)
    (played : (parts.foldl (addPartText ctx chord) {}).ornament = some ornament) :
    ∃ name, ctx.ornaments.find? name = some (some ornament) := by
  induction parts using List.reverseRecOn with
  | nil => cases played
  | append_singleton parts part ih =>
    rw [List.foldl_append, List.foldl_cons, List.foldl_nil, addPartText] at played
    split at played
    · exact ih (by simpa using played)
    · rw [addPart_ornament] at played
      split at played
      next found => exact ⟨part, by rw [find?_of_resolve found, played]⟩
      next => exact ih played

theorem stepOf_ornament {ctx : Context} {word chord : Text} {length : Int} {ornament : Ornament}
    (played : (stepOf ctx word length chord).ornament = some ornament) :
    ∃ name, ctx.ornaments.find? name = some (some ornament) := by
  rw [stepOf, Step.Draft.finish_ornament, draftOf, Step.Draft.markIfError_ornament] at played
  exact foldl_addPartText_ornament _ played

end Notation

end ScoreScript
