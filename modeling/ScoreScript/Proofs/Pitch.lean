import ScoreScript.Proofs.Word
import ScoreScript.Velocity

set_option autoImplicit false

namespace ScoreScript

def IsData (n : Int) : Prop := 0 ≤ n ∧ n ≤ 127

instance (n : Int) : Decidable (IsData n) := inferInstanceAs (Decidable (_ ∧ _))

theorem isData_clampData (n : Int) : IsData (clampData n) := ⟨clampData_nonneg n, clampData_le n⟩

def IsNamedPitch (literals : Table Int) (pitch : Int) : Prop :=
  ∃ name written, literals.find? name = some written ∧ ∃ octaves : Nat, pitch = written + 12 * octaves

namespace Step

def IsPitched (literals : Table Int) (s : Step) : Prop :=
  s.error = none → ∀ pitch ∈ s.pitches, IsData pitch ∨ IsNamedPitch literals pitch

namespace Draft

def IsPitched (literals : Table Int) (d : Draft) : Prop :=
  d.error = none → ∀ pitch ∈ d.pitches, IsData pitch ∨ IsNamedPitch literals pitch

variable {literals : Table Int} {d : Draft}

theorem isPitched_of_error (wrong : d.error ≠ none) : d.IsPitched literals :=
  fun clean => absurd clean wrong

theorem error_fail_ne_none (d : Draft) (kind : Diagnostic.Kind) : (d.fail kind).error ≠ none := by
  cases old : d.error <;> simp [fail, old]

theorem error_mark (d : Draft) (word : Text) : (d.mark word).error = none ↔ d.error = none := by
  unfold mark
  dsimp only
  split <;> simp_all

theorem IsPitched.markIfError (pitched : d.IsPitched literals) (word : Text) :
    (d.markIfError word).IsPitched literals := by
  unfold Draft.markIfError
  split
  next wrong =>
    apply isPitched_of_error
    rw [ne_eq, error_mark]
    exact Option.isSome_iff_ne_none.1 wrong
  next => exact pitched

theorem IsPitched.add (pitched : d.IsPitched literals) {after : Draft} {pitch : Int}
    (error : after.error = none → d.error = none) (pitches : after.pitches = d.pitches ++ [pitch])
    (known : after.error = none → IsData pitch ∨ IsNamedPitch literals pitch) :
    after.IsPitched literals := by
  intro clean other member
  rw [pitches, List.mem_append, List.mem_singleton] at member
  rcases member with old | rfl
  · exact pitched (error clean) other old
  · exact known clean

theorem IsPitched.addLiteral (pitched : d.IsPitched literals) {name : Text} {pitch : Int}
    (found : literals.find? name = some pitch) (isDrum : Bool) :
    (d.addLiteral name pitch isDrum).IsPitched literals := by
  cases isDrum with
  | true => exact pitched.add (fun clean => clean) rfl fun _ => .inr ⟨name, pitch, found, 0, by simp⟩
  | false => exact pitched.add (fun clean => clean) rfl fun _ => .inr ⟨name, pitch, found, _, rfl⟩

theorem isData_of_drumNote? {letter : CodePoint} {note : Int} (known : drumNote? letter = some note) :
    IsData note := by
  unfold drumNote? at known
  split at known <;> cases known <;> decide

theorem IsPitched.addDrum (pitched : d.IsPitched literals) (letter : CodePoint) :
    (d.addDrum letter).IsPitched literals := by
  unfold Draft.addDrum
  split
  · exact pitched
  · cases known : drumNote? letter.toLower with
    | none => exact isPitched_of_error (error_fail_ne_none d .invalidDrum)
    | some note =>
      exact pitched.add (fun clean => clean) rfl fun _ => .inl (isData_of_drumNote? known)

theorem rangeError?_eq_none (clean : d.rangeError? = none) : IsData (d.pitches.getLast?.getD 0) := by
  unfold rangeError? at clean
  dsimp only at clean
  split at clean
  · cases clean
  · split at clean
    · cases clean
    · simp only [IsData]
      omega

theorem IsPitched.addDegree (pitched : d.IsPitched literals) (octave transposition : Int)
    (degree : Text) : (d.addDegree octave transposition degree).IsPitched literals := by
  unfold Draft.addDegree
  split
  · exact pitched
  · cases Degree.index? degree with
    | none => exact isPitched_of_error (error_fail_ne_none _ _)
    | some index =>
      dsimp only
      split
      next inRange =>
        have checked := rangeError?_eq_none inRange
        refine pitched.add (fun clean => clean) rfl fun _ => .inl ?_
        simpa [addNote] using checked
      next => exact isPitched_of_error (error_fail_ne_none _ _)

end Draft

end Step

namespace Notation

open Step

theorem find?_literals_of_resolve {ctx : Context} {part chord name : Text} {pitch : Int}
    (resolved : Part.resolve ctx part chord = .literal name pitch) :
    ctx.literals.find? name = some pitch := by
  unfold Part.resolve at resolved
  split at resolved
  next found =>
    cases resolved
    exact found
  next =>
    split at resolved
    · cases resolved
    · split at resolved
      · cases resolved
      · have unnamed := Part.isNamed_ofCategory ctx part chord
        rw [resolved] at unnamed
        cases unnamed

variable {ctx : Context} {d : Draft}

theorem isPitched_addPart (pitched : d.IsPitched ctx.literals) {part : Part}
    (named : ∀ {name pitch}, part = .literal name pitch → ctx.literals.find? name = some pitch) :
    (addPart ctx d part).IsPitched ctx.literals := by
  cases part with
  | literal name pitch => exact pitched.addLiteral (named rfl) _
  | sample name => exact pitched
  | ornament ornament => exact pitched
  | drums letters =>
    exact List.foldlRecOn (motive := fun (d : Draft) => d.IsPitched ctx.literals) letters _ pitched
      fun _ before letter _ => before.addDrum letter
  | text text isChord =>
    simp only [addPart]
    split
    · exact Draft.isPitched_of_error (Draft.error_fail_ne_none _ _)
    · exact pitched
  | degrees word =>
    refine Draft.IsPitched.markIfError ?_ word
    exact List.foldlRecOn (motive := fun (d : Draft) => d.IsPitched ctx.literals) _ _ pitched
      fun _ before degree _ => before.addDegree ctx.octave ctx.transposition degree
  | invalid kind text =>
    apply Draft.isPitched_of_error
    rw [addPart, ne_eq, Draft.error_mark]
    exact Draft.error_fail_ne_none d kind

theorem isPitched_addPartText (chord : Text) (pitched : d.IsPitched ctx.literals) (part : Text) :
    (addPartText ctx chord d part).IsPitched ctx.literals := by
  unfold addPartText
  split
  · exact Draft.isPitched_of_error (Draft.error_fail_ne_none d _)
  · exact isPitched_addPart pitched find?_literals_of_resolve

theorem isPitched_stepOf (ctx : Context) (word : Text) (length : Int) (chord : Text) :
    (stepOf ctx word length chord).IsPitched ctx.literals := by
  have drafted : (draftOf ctx chord (undotted word)).IsPitched ctx.literals := by
    refine Draft.IsPitched.markIfError ?_ _
    exact List.foldlRecOn (motive := fun (d : Draft) => d.IsPitched ctx.literals) _ _
      (fun _ _ member => by simp at member) fun _ before part _ => isPitched_addPartText chord before part
  unfold stepOf Draft.finish
  dsimp only
  split
  · intro clean pitch member
    refine drafted clean pitch ?_
    simpa [ascending] using member
  · exact drafted

end Notation

end ScoreScript
