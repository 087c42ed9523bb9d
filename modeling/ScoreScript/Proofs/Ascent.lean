import ScoreScript.Proofs.Pitch

set_option autoImplicit false

namespace ScoreScript

namespace Step

def IsAscending (pitches : List Int) : Prop := pitches.Pairwise (· < ·)

instance (pitches : List Int) : Decidable (IsAscending pitches) :=
  inferInstanceAs (Decidable (pitches.Pairwise _))

theorem IsAscending.concat {pitches : List Int} {pitch : Int} (ascending : IsAscending pitches)
    (above : ∀ last, pitches.getLast? = some last → last < pitch) : IsAscending (pitches ++ [pitch]) := by
  cases pitches using List.reverseRecOn with
  | nil => exact List.pairwise_singleton _ pitch
  | append_singleton earlier last =>
    have highest := above last (by simp)
    have below := (List.pairwise_append.1 ascending).2.2
    refine List.pairwise_append.2
      ⟨ascending, List.pairwise_singleton _ pitch, fun other member added isPitch => ?_⟩
    rw [List.mem_singleton.1 isPitch]
    rcases List.mem_append.1 member with old | isLast
    · exact Int.lt_trans (below other old last (List.mem_singleton_self last)) highest
    · rwa [List.mem_singleton.1 isLast]

theorem isAscending_eraseDups : ∀ {pitches : List Int}, pitches.Pairwise (· ≤ ·) →
    IsAscending pitches.eraseDups
  | [], _ => .nil
  | pitch :: rest, sorted => by
    rw [List.eraseDups_cons]
    obtain ⟨least, sorted⟩ := List.pairwise_cons.1 sorted
    refine List.pairwise_cons.2 ⟨fun other member => ?_, isAscending_eraseDups (sorted.filter _)⟩
    obtain ⟨member, differs⟩ := List.mem_filter.1 (List.mem_eraseDups.1 member)
    have ne : other ≠ pitch := by simpa using differs
    have := least other member
    omega
termination_by pitches => pitches.length
decreasing_by exact Nat.lt_succ_of_le (List.length_filter_le _ rest)

theorem isAscending_ascending (pitches : List Int) : IsAscending (ascending pitches) := by
  refine isAscending_eraseDups ?_
  have sorted := @List.pairwise_mergeSort _ (fun first second : Int => decide (first ≤ second))
    (fun a b c => by simpa using Int.le_trans) (fun a b => by simpa using Int.le_total a b) pitches
  exact sorted.imp fun le => of_decide_eq_true le

namespace Draft

variable {d : Draft}

theorem isAscending_addNote (ascending : IsAscending d.pitches) (pitch place : Int) :
    IsAscending (d.addNote pitch place).pitches := by
  refine ascending.concat fun last isLast => ?_
  rw [isLast]
  exact lt_octavesAbove last pitch

theorem isAscending_addDegree (ascending : IsAscending d.pitches) (octave transposition : Int)
    (degree : Text) : IsAscending (d.addDegree octave transposition degree).pitches := by
  unfold addDegree
  split
  · exact ascending
  · cases Degree.index? degree with
    | none => exact ascending
    | some index =>
      dsimp only
      split <;> exact isAscending_addNote ascending _ (Degree.staffPlace index)

theorem mark_pitches (d : Draft) (word : Text) : (d.mark word).pitches = [errorPitch] := by
  unfold mark
  dsimp only
  split <;> rfl

theorem isAscending_mark (d : Draft) (word : Text) : IsAscending (d.mark word).pitches := by
  rw [mark_pitches]
  exact List.pairwise_singleton _ errorPitch

theorem isAscending_markIfError (ascending : IsAscending d.pitches) (word : Text) :
    IsAscending (d.markIfError word).pitches := by
  unfold markIfError
  split
  · exact isAscending_mark d word
  · exact ascending

theorem isAscending_addDegrees (ascending : IsAscending d.pitches) (word : Text)
    (octave transposition : Int) : IsAscending (d.addDegrees word octave transposition).pitches := by
  refine isAscending_markIfError ?_ word
  exact List.foldlRecOn (motive := fun (d : Draft) => IsAscending d.pitches) _ _ ascending
    fun _ before degree _ => isAscending_addDegree before octave transposition degree

theorem markIfError_of_clean {word : Text} (clean : (d.markIfError word).error = none) :
    d.markIfError word = d := by
  unfold markIfError at clean ⊢
  split
  next wrong =>
    rw [if_pos wrong, error_mark] at clean
    simp [clean] at wrong
  next => rfl

theorem addDrum_of_clean {letter : CodePoint} (clean : (d.addDrum letter).error = none) :
    d.error = none ∧
      (d.addDrum letter).pitches = d.pitches ++ (drumNote? letter.toLower).toList := by
  unfold addDrum at clean ⊢
  split at clean
  next point => simp [point, clean, show drumNote? (CodePoint.toLower (.char '.')) = none by decide]
  next noPoint =>
    cases known : drumNote? letter.toLower with
    | none =>
      simp only [known] at clean
      exact absurd clean (error_fail_ne_none d _)
    | some note =>
      simp only [known] at clean
      exact ⟨clean, by simp [noPoint]⟩

theorem addDrums_of_clean {letters : Text} (clean : (d.addDrums letters).error = none) :
    d.error = none ∧ (d.addDrums letters).pitches =
      d.pitches ++ letters.filterMap fun (letter : CodePoint) => drumNote? letter.toLower := by
  unfold addDrums at clean ⊢
  induction letters generalizing d with
  | nil => simpa using clean
  | cons letter rest ih =>
    obtain ⟨cleanHit, pitches⟩ := ih clean
    obtain ⟨cleanBefore, hit⟩ := addDrum_of_clean cleanHit
    refine ⟨cleanBefore, ?_⟩
    rw [List.foldl_cons, pitches, hit]
    cases known : drumNote? letter.toLower <;> simp [known]

theorem finish_pitches (d : Draft) (velocity length : Int) :
    (d.finish velocity length).pitches =
      if d.kind = .drum ∧ d.error = none then ascending d.pitches else d.pitches := by
  unfold finish
  dsimp only
  simp only [Option.isNone_iff_eq_none]
  split <;> rfl

end Draft

end Step

namespace Notation

open Step

variable {ctx : Context} {chord : Text}

def Context.TakesLetters (ctx : Context) : Prop := ctx.category = .drum ∨ ctx.category = .sample

/-- The hits of a word after one more part. Letters are taken as they are, and so are the names that a drum
instrument plays; other names go up by octaves. -/
def Part.hitsAfter (ctx : Context) (earlier : List Int) : Part → List Int
  | .literal _ pitch =>
    if ctx.category = .drum then earlier ++ [pitch]
    else earlier ++ [pitch + 12 * Draft.octavesAbove earlier.getLast? pitch]
  | .drums letters =>
    earlier ++ letters.filterMap fun (letter : CodePoint) => Draft.drumNote? letter.toLower
  | .sample _ | .ornament _ | .text _ _ | .degrees _ | .invalid _ _ => earlier

def hitsOf (ctx : Context) (chord word : Text) : List Int :=
  (word.splitOn (.char '/')).foldl
    (fun earlier part => (Part.resolve ctx part chord).hitsAfter ctx earlier) []

theorem Part.resolve_eq_or (ctx : Context) (part chord : Text) :
    (Part.resolve ctx part chord).isNamed = true ∨
      Part.resolve ctx part chord = .ofCategory ctx part chord := by
  unfold Part.resolve
  split
  · exact .inl rfl
  · split
    · exact .inl rfl
    · split
      · exact .inl rfl
      · exact .inr rfl

theorem Part.resolve_of_letters (letters : ctx.TakesLetters) (part chord : Text) :
    (Part.resolve ctx part chord).isNamed = true ∨ Part.resolve ctx part chord = .drums part := by
  refine (Part.resolve_eq_or ctx part chord).imp_right fun unnamed => unnamed.trans ?_
  rcases letters with drum | sample
  · simp [Part.ofCategory, drum]
  · simp [Part.ofCategory, sample]

theorem Part.ofCategory_ne_drums (others : ¬ctx.TakesLetters) (part letters : Text) :
    Part.ofCategory ctx part chord ≠ .drums letters := by
  unfold Part.ofCategory
  split
  next drum => exact absurd (.inl drum) others
  next sample => exact absurd (.inr sample) others
  · simp
  · simp
  · split
    next request _ =>
      cases request with
      | none => simp [Part.ofRequest]
      | some extent =>
        dsimp only [Part.ofRequest]
        split_ifs <;> simp
    next => simp [Part.ofDegrees]

theorem isAscending_addPart (others : ¬ctx.TakesLetters) {d : Draft} (ascending : IsAscending d.pitches)
    {part : Part} (noLetters : ∀ letters, part ≠ .drums letters) :
    IsAscending (addPart ctx d part).pitches := by
  cases part with
  | literal name pitch =>
    have noDrum : ctx.category ≠ .drum := fun drum => others (.inl drum)
    simp only [addPart, noDrum, decide_false, Draft.addLiteral]
    exact Draft.isAscending_addNote ascending pitch Draft.literalPlace
  | sample name => exact ascending
  | ornament ornament => exact ascending
  | drums letters => exact absurd rfl (noLetters letters)
  | text text isChord =>
    simp only [addPart]
    split <;> exact ascending
  | degrees word => exact Draft.isAscending_addDegrees ascending word ctx.octave ctx.transposition
  | invalid kind text => exact Draft.isAscending_mark (d.fail kind) text

theorem isAscending_draftOf (others : ¬ctx.TakesLetters) (chord word : Text) :
    IsAscending (draftOf ctx chord word).pitches := by
  refine Draft.isAscending_markIfError ?_ word
  refine List.foldlRecOn (motive := fun (d : Draft) => IsAscending d.pitches) _ _ .nil
    fun d before part _ => ?_
  unfold addPartText
  split
  · exact before
  · refine isAscending_addPart others before fun letters resolved => ?_
    rcases Part.resolve_eq_or ctx part chord with named | unnamed
    · rw [resolved] at named
      cases named
    · exact Part.ofCategory_ne_drums others part letters (unnamed.symm.trans resolved)

theorem addPartText_of_clean (letters : ctx.TakesLetters) {d : Draft} {part : Text}
    (clean : (addPartText ctx chord d part).error = none) :
    d.error = none ∧
      (addPartText ctx chord d part).pitches = (Part.resolve ctx part chord).hitsAfter ctx d.pitches := by
  unfold addPartText at clean ⊢
  split
  next empty =>
    rw [if_pos empty] at clean
    exact absurd clean (Draft.error_fail_ne_none d _)
  next present =>
    rw [if_neg present] at clean
    rcases Part.resolve_of_letters letters part chord with named | isLetters
    · cases resolved : Part.resolve ctx part chord with
      | literal name pitch =>
        rw [resolved] at clean
        by_cases drum : ctx.category = .drum
        · simp only [addPart, drum, decide_true] at clean ⊢
          exact ⟨clean, by simp [Draft.addLiteral, Part.hitsAfter, drum]⟩
        · simp only [addPart, drum, decide_false] at clean ⊢
          exact ⟨clean, by simp [Draft.addLiteral, Draft.addNote, Part.hitsAfter, drum]⟩
      | sample name =>
        rw [resolved] at clean
        exact ⟨clean, rfl⟩
      | ornament ornament =>
        rw [resolved] at clean
        exact ⟨clean, rfl⟩
      | drums | text | degrees | invalid => simp [resolved, Part.isNamed] at named
    · rw [isLetters] at clean ⊢
      exact Draft.addDrums_of_clean clean

theorem foldl_addPartText_of_clean (letters : ctx.TakesLetters) (parts : List Text)
    (clean : (parts.foldl (addPartText ctx chord) {}).error = none) :
    (parts.foldl (addPartText ctx chord) {}).pitches =
      parts.foldl (fun earlier part => (Part.resolve ctx part chord).hitsAfter ctx earlier) [] := by
  induction parts using List.reverseRecOn with
  | nil => rfl
  | append_singleton parts part ih =>
    simp only [List.foldl_append, List.foldl_cons, List.foldl_nil] at clean ⊢
    obtain ⟨cleanBefore, pitches⟩ := addPartText_of_clean letters clean
    rw [pitches, ih cleanBefore]

theorem pitches_draftOf (letters : ctx.TakesLetters) {word : Text}
    (clean : (draftOf ctx chord word).error = none) :
    (draftOf ctx chord word).pitches = hitsOf ctx chord word := by
  have unmarked := Draft.markIfError_of_clean clean
  rw [← draftOf] at unmarked
  rw [unmarked] at clean ⊢
  exact foldl_addPartText_of_clean letters _ clean

theorem isAscending_of_error {word : Text} (wrong : (draftOf ctx chord word).error ≠ none) :
    IsAscending (draftOf ctx chord word).pitches := by
  unfold draftOf Draft.markIfError at wrong ⊢
  split
  next => exact Draft.isAscending_mark _ word
  next unmarked =>
    rw [if_neg unmarked] at wrong
    exact absurd (by simpa using unmarked) wrong

/-- The notes of a step ascend unless letters or names of drum hits are written out of order and no drum
part decides its kind, so that nothing sorts them. -/
theorem isAscending_stepOf_iff (ctx : Context) (word : Text) (length : Int) (chord : Text) :
    IsAscending (stepOf ctx word length chord).pitches ↔
      (stepOf ctx word length chord).isError = true ∨
        (partKinds ctx chord (undotted word)).getLast? = some .drum ∨
        (ctx.TakesLetters → IsAscending (hitsOf ctx chord (undotted word))) := by
  have kind : (draftOf ctx chord (undotted word)).kind = .drum ↔
      (partKinds ctx chord (undotted word)).getLast? = some .drum := by
    rw [draftOf_kind]
    cases (partKinds ctx chord (undotted word)).getLast? <;> simp
  rw [← kind, isError, stepOf, Draft.finish_error, Draft.finish_pitches]
  -- an error leaves one mark, a drum part has the hits sorted, and else the draft is taken as it is
  by_cases clean : (draftOf ctx chord (undotted word)).error = none
  · by_cases drum : (draftOf ctx chord (undotted word)).kind = .drum
    · simp [clean, drum, isAscending_ascending]
    · by_cases letters : ctx.TakesLetters
      · simp [clean, drum, letters, pitches_draftOf letters clean]
      · simp [clean, drum, letters, isAscending_draftOf letters]
  · simpa [clean, Option.isSome_iff_ne_none] using isAscending_of_error clean

theorem letters_descend_before_name :
    ∃ step, stepOf { category := .sample, literals := [("k", 40)] } "sb/k" 12 [] = step ∧
      step.error = none ∧ step.pitches = [38, 36, 40] ∧ ¬IsAscending step.pitches :=
  ⟨_, rfl, by decide +kernel, by decide +kernel, by decide +kernel⟩

end Notation

end ScoreScript
