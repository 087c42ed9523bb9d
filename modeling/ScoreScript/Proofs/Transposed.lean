import ScoreScript.Proofs.Ascent

set_option autoImplicit false

namespace ScoreScript

namespace Step

def transposed (interval : Int) (s : Step) : Step := { s with pitches := s.pitches.map (· + interval) }

namespace Draft

variable {interval : Int}

def transposed (interval : Int) (d : Draft) : Draft := { d with pitches := d.pitches.map (· + interval) }

theorem octavesAbove_transposed (interval : Int) (previous : Option Int) (pitch : Int) :
    octavesAbove (previous.map (· + interval)) (pitch + interval) = octavesAbove previous pitch := by
  cases previous with
  | none => rfl
  | some previous =>
    simp only [octavesAbove, Option.map]
    rw [Int.add_sub_add_right]
    simp only [Int.add_lt_add_iff_right]

theorem addNote_transposed (interval : Int) (d : Draft) (pitch place : Int) :
    (d.transposed interval).addNote (pitch + interval) place = (d.addNote pitch place).transposed interval := by
  have same := octavesAbove_transposed interval d.pitches.getLast? pitch
  simp only [addNote, transposed, List.getLast?_map, same, List.map_append]
  simp [Int.add_right_comm]

def withDegree (octave transposition : Int) (d : Draft) (index : Nat) : Draft :=
  let midi : Int := (octave - 1) * 12 + index
  { ({ d with kind := .synth } : Draft).addNote (midi + transposition) (Degree.staffPlace index) with
    octaveHint := if d.octaveHint = 0 ∧ 24 < midi then midi / 12 - 2 else d.octaveHint
    text := d.text ++ Degree.display midi ++ " " }

theorem withDegree_transposed (interval octave transposition : Int) (d : Draft) (index : Nat) :
    (d.transposed interval).withDegree octave (transposition + interval) index =
      (d.withDegree octave transposition index).transposed interval := by
  have noted := addNote_transposed interval ({ d with kind := .synth } : Draft)
    ((octave - 1) * 12 + index + transposition) (Degree.staffPlace index)
  rw [Int.add_assoc] at noted
  unfold withDegree
  dsimp only
  rw [show ({ d.transposed interval with kind := .synth } : Draft) =
    ({ d with kind := .synth } : Draft).transposed interval from rfl, noted]
  rfl

theorem addDegree_of_index {octave transposition : Int} {d : Draft} {degree : Text} {index : Nat}
    (sounds : degree ≠ ".") (known : Degree.index? degree = some index) :
    d.addDegree octave transposition degree =
      match (d.withDegree octave transposition index).rangeError? with
      | none => d.withDegree octave transposition index
      | some kind => (d.withDegree octave transposition index).fail kind := by
  rw [addDegree, if_neg sounds, known]
  rfl

theorem addDegree_of_clean {octave transposition : Int} {d : Draft} {degree : Text} (sounds : degree ≠ ".")
    (clean : (d.addDegree octave transposition degree).error = none) :
    d.error = none ∧ ∃ index, Degree.index? degree = some index ∧
      d.addDegree octave transposition degree = d.withDegree octave transposition index := by
  cases known : Degree.index? degree with
  | none =>
    rw [addDegree, if_neg sounds, known] at clean
    exact absurd clean (error_fail_ne_none _ _)
  | some index =>
    rw [addDegree_of_index sounds known] at clean ⊢
    split at clean
    next => exact ⟨clean, index, rfl, rfl⟩
    next => exact absurd clean (error_fail_ne_none _ _)

theorem finish_transposed (interval velocity length : Int) {d : Draft} (melodic : d.kind ≠ .drum) :
    (d.transposed interval).finish velocity length = (d.finish velocity length).transposed interval := by
  have noHits : ¬(d.kind = .drum ∧ d.error.isNone = true) := fun hits => melodic hits.1
  have noHits' : ¬((d.transposed interval).kind = .drum ∧ (d.transposed interval).error.isNone = true) := noHits
  unfold finish
  dsimp only
  rw [if_neg noHits, if_neg noHits']
  rfl

/-- Two drafts of one word in different transpositions. One of them may have left the range of notes. -/
structure Parallel (interval : Int) (d d' : Draft) : Prop where
  melodic : d.kind ≠ .drum
  moved : d.error = none → d'.error = none → d' = d.transposed interval

variable {d d' : Draft}

theorem Parallel.addDegree (parallel : d.Parallel interval d') (octave transposition : Int) (degree : Text) :
    (d.addDegree octave transposition degree).Parallel interval
      (d'.addDegree octave (transposition + interval) degree) := by
  refine ⟨?_, fun clean clean' => ?_⟩
  · rw [addDegree_kind]
    split_ifs <;> decide
  · by_cases rest : degree = "."
    · rw [Draft.addDegree, if_pos rest] at clean clean' ⊢
      rw [Draft.addDegree, if_pos rest, parallel.moved clean clean']
      rfl
    · obtain ⟨cleanBefore, index, known, noted⟩ := addDegree_of_clean rest clean
      obtain ⟨cleanBefore', index', known', noted'⟩ := addDegree_of_clean rest clean'
      obtain rfl : index = index' := Option.some.inj (known.symm.trans known')
      rw [noted, noted', parallel.moved cleanBefore cleanBefore', withDegree_transposed]

theorem Parallel.markIfError (parallel : d.Parallel interval d') (word : Text) :
    (d.markIfError word).Parallel interval (d'.markIfError word) := by
  refine ⟨by simpa using parallel.melodic, fun clean clean' => ?_⟩
  have unmarked := markIfError_of_clean clean
  have unmarked' := markIfError_of_clean clean'
  rw [unmarked] at clean ⊢
  rw [unmarked'] at clean' ⊢
  exact parallel.moved clean clean'

theorem Parallel.addDegrees (parallel : d.Parallel interval d') (word : Text) (octave transposition : Int) :
    (d.addDegrees word octave transposition).Parallel interval
      (d'.addDegrees word octave (transposition + interval)) := by
  refine Parallel.markIfError ?_ word
  exact List.foldl_rel parallel fun degree _ _ _ parallel => parallel.addDegree octave transposition degree

theorem Parallel.fail (parallel : d.Parallel interval d') (kind : Diagnostic.Kind) :
    (d.fail kind).Parallel interval (d'.fail kind) :=
  ⟨parallel.melodic, fun clean => absurd clean (error_fail_ne_none d kind)⟩

end Draft

end Step

namespace Notation

open Step

def Part.IsMelodic : Part → Prop
  | .degrees _ | .ornament _ | .invalid _ _ => True
  | .literal _ _ | .sample _ | .drums _ | .text _ _ => False

def Context.IsUnnamed (ctx : Context) (part : Text) : Prop :=
  ctx.literals.find? part = none ∧ ctx.samples.contains part = false

instance (ctx : Context) (part : Text) : Decidable (ctx.IsUnnamed part) := inferInstanceAs (Decidable (_ ∧ _))

variable {ctx : Context} {part chord : Text}

theorem Part.isMelodic_resolve (synth : ctx.category = .synth) (unnamed : ctx.IsUnnamed part) :
    (Part.resolve ctx part chord).IsMelodic := by
  unfold Part.resolve Part.ofCategory
  rw [unnamed.1, unnamed.2, synth]
  dsimp only
  rw [if_neg Bool.false_ne_true]
  split
  · trivial
  · split
    next request _ =>
      cases request with
      | none => trivial
      | some extent =>
        unfold Part.ofRequest
        dsimp only
        split_ifs <;> trivial
    next => trivial

def Context.inTransposition (ctx : Context) (transposition : Int) : Context := { ctx with transposition }

theorem parallel_addPart (t interval : Int) {d d' : Draft} (parallel : d.Parallel interval d') {part : Part}
    (melodic : part.IsMelodic) :
    (addPart (ctx.inTransposition t) d part).Parallel interval
      (addPart (ctx.inTransposition (t + interval)) d' part) := by
  cases part with
  | degrees word => exact parallel.addDegrees word ctx.octave t
  | ornament ornament =>
    refine ⟨parallel.melodic, fun clean clean' => ?_⟩
    rw [addPart, addPart, parallel.moved clean clean']
    rfl
  | invalid kind text =>
    refine ⟨by simpa [addPart] using parallel.melodic, fun clean => ?_⟩
    rw [addPart, Draft.error_mark] at clean
    exact absurd clean (Draft.error_fail_ne_none d kind)
  | literal | sample | drums | text => exact melodic.elim

theorem parallel_addPartText (synth : ctx.category = .synth) (unnamed : ctx.IsUnnamed part) (t interval : Int)
    {d d' : Draft} (parallel : d.Parallel interval d') :
    (addPartText (ctx.inTransposition t) chord d part).Parallel interval
      (addPartText (ctx.inTransposition (t + interval)) chord d' part) := by
  unfold addPartText
  split
  · exact parallel.fail .syntaxError
  · exact parallel_addPart t interval parallel (Part.isMelodic_resolve synth unnamed)

theorem parallel_draftOf (synth : ctx.category = .synth) {word : Text}
    (unnamed : ∀ part ∈ word.splitOn (.char '/'), ctx.IsUnnamed part) (t interval : Int) :
    (draftOf (ctx.inTransposition t) chord word).Parallel interval
      (draftOf (ctx.inTransposition (t + interval)) chord word) := by
  refine Draft.Parallel.markIfError ?_ word
  have start : ({} : Draft).Parallel interval {} := ⟨by decide, fun _ _ => rfl⟩
  exact List.foldl_rel start fun part member _ _ parallel =>
    parallel_addPartText synth (unnamed part member) t interval parallel

theorem stepOf_transposed (synth : ctx.category = .synth) {word : Text}
    (unnamed : ∀ part ∈ (undotted word).splitOn (.char '/'), ctx.IsUnnamed part) {t u length : Int}
    (clean : (stepOf (ctx.inTransposition t) word length chord).error = none)
    (clean' : (stepOf (ctx.inTransposition u) word length chord).error = none) :
    stepOf (ctx.inTransposition u) word length chord =
      (stepOf (ctx.inTransposition t) word length chord).transposed (u - t) := by
  have parallel := @parallel_draftOf ctx chord synth _ unnamed t (u - t)
  rw [show t + (u - t) = u by omega] at parallel
  rw [stepOf, Draft.finish_error] at clean clean'
  rw [stepOf, stepOf, parallel.moved clean clean']
  exact Draft.finish_transposed _ _ _ parallel.melodic

end Notation

end ScoreScript
