import ScoreScript.Proofs.Parted
import ScoreScript.Proofs.StepText

set_option autoImplicit false

namespace ScoreScript

namespace Measure

variable {measure : Measure}

theorem exists_covers_iff (long : ∀ step ∈ measure, 0 ≤ step.length) (position : Int) :
    (∃ n step, measure.Covers n step position) ↔ 0 ≤ position ∧ position < measure.duration := by
  induction measure generalizing position with
  | nil =>
    constructor
    · rintro ⟨n, step, here, -⟩
      simp at here
    · rintro ⟨started, ended⟩
      rw [duration_nil] at ended
      omega
  | cons first rest ih =>
    obtain ⟨firstLong, longRest⟩ := List.forall_mem_cons.1 long
    rw [duration_cons]
    constructor
    · rintro ⟨_ | n, step, covers⟩
      · have := (covers_zero.1 covers).2
        have := duration_nonneg longRest
        omega
      · have := (ih longRest _).1 ⟨n, step, covers_succ.1 covers⟩
        omega
    · rintro ⟨started, ended⟩
      rcases lt_or_ge position first.length with inFirst | later
      · exact ⟨0, first, covers_zero.2 ⟨rfl, started, inFirst⟩⟩
      · obtain ⟨n, step, covers⟩ := (ih longRest (position - first.length)).2 (by omega)
        exact ⟨n + 1, step, covers_succ.2 covers⟩

theorem forall_exists_covers_iff (long : ∀ step ∈ measure, 0 ≤ step.length) (size : Int) :
    (∀ t, 0 ≤ t → t < size → ∃ n step, measure.Covers n step t) ↔ size ≤ measure.duration := by
  simp only [exists_covers_iff long]
  constructor
  · intro covered
    by_contra short
    have := duration_nonneg long
    have := covered measure.duration this (by omega)
    omega
  · intro filled t started inside
    omega

theorem texts_present_iff (long : ∀ step ∈ measure, 1 ≤ step.length) {textAt : Int → Text}
    (named : ∀ n step t, measure.Covers n step t → textAt t = step.text) :
    (∀ t, 0 ≤ t → t < measure.duration → textAt t ≠ []) ↔ [] ∉ measure.map Step.text := by
  have long' : ∀ step ∈ measure, 0 ≤ step.length := fun step member => Int.le_of_lt (long step member)
  constructor
  · intro present member
    obtain ⟨step, inside, empty⟩ := List.mem_map.1 member
    obtain ⟨n, here⟩ := List.mem_iff_getElem?.1 inside
    have covers : measure.Covers n step (Measure.duration (measure.take n)) :=
      ⟨here, le_refl _, by have := long step inside; omega⟩
    obtain ⟨started, ended⟩ := (exists_covers_iff long' _).1 ⟨n, step, covers⟩
    exact present _ started ended ((named n step _ covers).trans empty)
  · intro absent t started ended empty
    obtain ⟨n, step, covers⟩ := (exists_covers_iff long' t).2 ⟨started, ended⟩
    rw [named n step t covers] at empty
    exact absent (empty ▸ List.mem_map_of_mem (List.mem_of_getElem? covers.here))

end Measure

namespace Notation

open ScoreScript.Measure

/-! ### The texts of a line -/

def heldText (measures : List Measure) : Text :=
  ((measures.getLast?.bind List.getLast?).map Step.text).getD []

def wordTexts (ctx : Context) (words : List Text) : List Text :=
  (words.filter (IsPlain ·)).map fun word => (stepOf ctx word 1 []).text

/-- The texts of the steps that the words of a phrase become, when a dash at the start goes on with a step of
text `held`. -/
def rowTexts (ctx : Context) (held : Text) : List Text → List Text
  | [] => []
  | word :: rest =>
    if word = tie then held :: wordTexts ctx rest
    else if IsPlain word then wordTexts ctx (word :: rest)
    else rowTexts ctx held rest

def OpensTied (words : List Text) : Prop := words.find? (fun word => word = tie ∨ IsPlain word) = some tie

instance (words : List Text) : Decidable (OpensTied words) := inferInstanceAs (Decidable (_ = _))

variable {ctx : Context} {words : List Text}

theorem nil_mem_wordTexts (other : ctx.category ≠ .synth) (solid : ∀ word ∈ words, word.IsSolid) :
    [] ∈ wordTexts ctx words ↔ ∃ word ∈ words, IsPlain word ∧ IsMute ctx word := by
  simp only [wordTexts, List.mem_map, List.mem_filter, decide_eq_true_eq, and_assoc]
  refine exists_congr fun word => and_congr_right fun member => and_congr_right fun _ => ?_
  exact text_stepOf_eq_nil other (solid word member) 1 []

theorem nil_mem_rowTexts (other : ctx.category ≠ .synth) (solid : ∀ word ∈ words, word.IsSolid)
    (held : Text) :
    [] ∈ rowTexts ctx held words ↔
      OpensTied words ∧ held = [] ∨ ∃ word ∈ words, IsPlain word ∧ IsMute ctx word := by
  induction words with
  | nil => simp [rowTexts, OpensTied]
  | cons word rest ih =>
    obtain ⟨-, solidRest⟩ := List.forall_mem_cons.1 solid
    have dash : ¬IsPlain tie := by decide
    rw [rowTexts]
    split_ifs with tied plain
    · subst tied
      simp [OpensTied, nil_mem_wordTexts other solidRest, dash, eq_comm]
    · simp [OpensTied, nil_mem_wordTexts other solid, tied, plain]
    · simp [OpensTied, ih solidRest, tied, plain]

theorem stepOf_text (other : ctx.category ≠ .synth) (word chord : Text) (length : Int) :
    (stepOf ctx word length chord).text = (stepOf ctx word 1 []).text := by
  rw [stepOf, stepOf, Step.Draft.finish_text, Step.Draft.finish_text, draftOf_of_not_synth other]

theorem heldText_eq (measures : List Measure) :
    heldText measures = ((Bar.heldStep? measures).map fun held => held.2.text).getD [] := by
  unfold heldText Bar.heldStep?
  cases measures.getLast? with
  | none => rfl
  | some measure => cases h : measure.getLast? <;> simp [h]

namespace Bar

variable {b : Bar} (chordAt : Nat → Int → Text) (line base : Int)

theorem texts_addTie (b : Bar) (velocity length : Int) : (b.addTie velocity length).steps.map Step.text =
    if b.steps = [] then [heldText b.earlier] else b.steps.map Step.text := by
  rcases List.eq_nil_or_concat' b.steps with empty | ⟨steps, last, filled⟩
  · rw [if_pos empty, heldText_eq]
    cases found : heldStep? b.earlier with
    | none =>
      rw [addTie_of_silence empty found]
      rfl
    | some pair =>
      rw [addTie_of_held empty (eq_concat_of_heldStep? found)]
      rfl
  · rw [addTie_of_steps filled, filled]
    simp

theorem texts_addWord_of_plain (other : ctx.category ≠ .synth) {word : Text} (plain : IsPlain word) :
    (b.addWord ctx chordAt line base word).steps.map Step.text =
      b.steps.map Step.text ++ [(stepOf ctx word 1 []).text] := by
  simp [addWord, ofWord_eq_step.2 plain, addStep, stepOf_text other word (chordAt _ _)]

theorem texts_addWord_of_tie (ctx : Context) (b : Bar) :
    (b.addWord ctx chordAt line base tie).steps.map Step.text =
      if b.steps = [] then [heldText b.earlier] else b.steps.map Step.text := by
  simp only [addWord, ofWord_eq_tie.2]
  exact texts_addTie b _ _

theorem addWord_of_bracket (ctx : Context) (b : Bar) {word : Text} (sign : ¬IsPlain word)
    (other : word ≠ tie) : ∃ unit, b.addWord ctx chordAt line base word = { b with unit := unit } := by
  unfold addWord
  cases mark : Mark.ofWord word with
  | bracket factor => exact ⟨_, rfl⟩
  | brace => exact ⟨b.unit, rfl⟩
  | tie => exact absurd (ofWord_eq_tie.1 mark) other
  | step => exact absurd (ofWord_eq_step.1 mark) sign

theorem texts_addWords (other : ctx.category ≠ .synth) (words : List Text) (begun : b.steps ≠ []) :
    (words.foldl (addWord ctx chordAt line base) b).steps.map Step.text =
      b.steps.map Step.text ++ wordTexts ctx words := by
  induction words generalizing b with
  | nil => simp [wordTexts]
  | cons word rest ih =>
    rw [List.foldl_cons]
    by_cases plain : IsPlain word
    · have here := texts_addWord_of_plain chordAt line base (b := b) other plain
      rw [ih fun empty => by simp [empty] at here, here]
      simp [wordTexts, plain]
    · have skipped : wordTexts ctx (word :: rest) = wordTexts ctx rest := by simp [wordTexts, plain]
      rw [skipped]
      by_cases tied : word = tie
      · subst tied
        have here := texts_addWord_of_tie chordAt line base ctx b
        rw [if_neg begun] at here
        rw [ih fun empty => begun (by simpa [empty] using here.symm), here]
      · obtain ⟨unit, same⟩ := addWord_of_bracket chordAt line base ctx b plain tied
        rw [same]
        exact ih (b := { b with unit := unit }) begun

theorem texts_addWords_of_empty (other : ctx.category ≠ .synth) (words : List Text) (empty : b.steps = []) :
    (words.foldl (addWord ctx chordAt line base) b).steps.map Step.text =
      rowTexts ctx (heldText b.earlier) words := by
  induction words generalizing b with
  | nil => simp [empty, rowTexts]
  | cons word rest ih =>
    rw [List.foldl_cons, rowTexts]
    split_ifs with tied plain
    · subst tied
      have here := texts_addWord_of_tie chordAt line base ctx b
      rw [if_pos empty] at here
      rw [texts_addWords chordAt line base other rest fun empty => by simp [empty] at here, here]
      rfl
    · have here := texts_addWord_of_plain chordAt line base (b := b) other plain
      rw [empty] at here
      rw [texts_addWords chordAt line base other rest fun empty => by simp [empty] at here, here]
      simp [wordTexts, plain]
    · obtain ⟨unit, same⟩ := addWord_of_bracket chordAt line base ctx b plain tied
      rw [same]
      exact ih (b := { b with unit := unit }) empty

end Bar

/-! ### Measures of a row of words -/

theorem Retied.texts {measures after : List Measure} (retied : Retied measures after) :
    after.map (List.map Step.text) = measures.map (List.map Step.text) := by
  cases retied with
  | same => rfl
  | held => simp

theorem heldText_congr {measures others : List Measure}
    (texts : measures.map (List.map Step.text) = others.map (List.map Step.text)) :
    heldText measures = heldText others := by
  have view (measures : List Measure) :
      heldText measures = ((measures.map (List.map Step.text)).getLast?.bind List.getLast?).getD [] := by
    rw [heldText, List.getLast?_map]
    cases measures.getLast? <;> simp
  rw [view, view, texts]

structure IsLaidOut (ctx : Context) (m : Nat) (words : List Text) (measures : List Measure) : Prop where
  duration : (measures.map Measure.duration)[m]? = some (sharesOf words ctx.budget)
  texts : (measures.map (List.map Step.text))[m]? = some (rowTexts ctx (heldText (measures.take m)) words)

theorem isLaidOut_barOf (other : ctx.category ≠ .synth) (chordAt : Nat → Int → Text) (line : Int)
    (measures : List Measure) (words : List Text) :
    IsLaidOut ctx measures.length words (barOf ctx chordAt line measures words).measures := by
  have retied := retied_barOf ctx chordAt line measures words
  constructor
  · rw [durations_barOf]
    simp
  · have texts := Bar.texts_addWords_of_empty chordAt line (unitLength words ctx.budget)
      (b := { earlier := measures }) other words rfl
    rw [Bar.measures, ← retied.length, List.take_left, heldText_congr retied.texts]
    simpa [barOf] using texts

theorem isStable_isLaidOut (ctx : Context) (m : Nat) (words : List Text) :
    IsStable (IsLaidOut ctx m words) := by
  intro ctx' chordAt line measures more laid
  have inside := (List.getElem?_eq_some_iff.1 laid.duration).1
  rw [List.length_map] at inside
  have retied := retied_barOf ctx' chordAt line measures more
  constructor
  · rw [durations_barOf, List.getElem?_append_left (by simpa using inside)]
    exact laid.duration
  · have before : heldText ((barOf ctx' chordAt line measures more).measures.take m) =
        heldText (measures.take m) := by
      rw [Bar.measures, List.take_append_of_le_length (by rw [retied.length]; omega)]
      exact heldText_congr (by rw [List.map_take, List.map_take, retied.texts])
    rw [before, Bar.measures, List.map_append, retied.texts,
      List.getElem?_append_left (by simpa using inside)]
    exact laid.texts

theorem mem_wordRows {phrases words : List Text} (member : words ∈ wordRows phrases) :
    words ≠ [] ∧ ∀ word ∈ words, word.IsSolid := by
  obtain ⟨inLine, present⟩ := List.mem_filter.1 member
  obtain ⟨phrase, -, rfl⟩ := List.mem_map.1 inLine
  exact ⟨of_decide_eq_true present, fun word => Text.isSolid_of_mem_words⟩

/-! ### Requests -/

structure AsksFor (ctx : Context) (part : Text) (extent : Chord.Extent) : Prop where
  synth : ctx.category = .synth
  literal : ctx.literals.find? part = none
  sample : ctx.samples.contains part = false
  ornament : ctx.ornaments.find? part = none
  request : chordRequest? part = some (some extent)

theorem AsksFor.resolve {part : Text} {extent : Chord.Extent} (asks : AsksFor ctx part extent) (chord : Text) :
    Part.resolve ctx part chord = .ofRequest ctx.chords part chord (some extent) := by
  obtain ⟨synth, literal, sample, ornament, request⟩ := asks
  simp [Part.resolve, Part.ofCategory, synth, literal, sample, ornament, request]

end Notation

/-! ### Bars of chords -/

namespace MusicalSection

open Notation

/-- Whether a measure has the chords of a bar: they sound from the start of the bar to some end without a gap,
and what is looked up is the text of the chord that sounds. -/
structure HasChords (s : MusicalSection) (m : Nat) (finish : Int) (measure : Measure) : Prop where
  here : (s.measuresOf chordInstrument)[m]? = some measure
  covered : ∀ t, (∃ n step, measure.Covers n step t) ↔ 0 ≤ t ∧ t < finish
  named : ∀ n step t, measure.Covers n step t → s.chordAt m t = step.text
  silent : ∀ t, ¬(0 ≤ t ∧ t < finish) → s.chordAt m t = []

structure Answers (s : MusicalSection) (m : Nat) (finish : Int) (measure : Measure) (ctx : Context)
    (part : Text) (extent : Chord.Extent) : Prop where
  sounding : ∀ n step t, measure.Covers n step t →
    Part.resolve ctx part (s.chordAt m t) = .ofRequest ctx.chords part step.text (some extent)
  behind : ∀ t, ¬(0 ≤ t ∧ t < finish) →
    Part.resolve ctx part (s.chordAt m t) = .invalid .invalidChord part

theorem HasChords.answers {s : MusicalSection} {m : Nat} {finish : Int} {measure : Measure}
    (chords : s.HasChords m finish measure) {ctx : Context} {part : Text} {extent : Chord.Extent}
    (asks : AsksFor ctx part extent) : s.Answers m finish measure ctx part extent where
  sounding n step t covers := by rw [chords.named n step t covers, asks.resolve]
  behind t outside := by
    rw [chords.silent t outside, asks.resolve]
    rfl

end MusicalSection

namespace Score

open MusicalSection Notation

variable (c : Score) (stepVelocity : Int) (depth : Nat)

def linesBefore (front : List Script.Line) (line : Script.Line) (back : List Script.Line) : List Script.Line :=
  if line.key = chordInstrument then front.filter (·.key = chordInstrument)
  else front ++ back.filter (·.key = chordInstrument)

def WritesMeasure (s : Script.Section) (instrument : Text) (m : Nat) (words : List Text) : Prop :=
  ∃ front line back, s.lines = front ++ line :: back ∧ line.key = instrument ∧
    let before := (readMusicLines c stepVelocity depth { s with lines := linesBefore front line back }).1
    ∃ i, (wordRows (Phrase.ofLine c.sequences before.length depth line.number line.value).1)[i]? = some words ∧
      m = (before.measuresOf instrument).length + i

variable {s : Script.Section} {m : Nat} {words : List Text}

theorem readMusicLines_after {front back : List Script.Line} {line : Script.Line}
    (lines : s.lines = front ++ line :: back) :
    ∃ after : List Script.Line, (line.key ≠ chordInstrument → ∀ other ∈ after, other.key ≠ chordInstrument) ∧
      readMusicLines c stepVelocity depth s = after.foldl (readMusicLine c stepVelocity depth)
        (readMusicLine c stepVelocity depth
          (readMusicLines c stepVelocity depth { s with lines := linesBefore front line back }) line) := by
  by_cases chords : line.key = chordInstrument
  · refine ⟨back.filter (·.key = chordInstrument) ++ (front ++ back).filter (·.key ≠ chordInstrument),
      fun plays => absurd chords plays, ?_⟩
    simp [readMusicLines, Script.Section.moveFirst, lines, linesBefore, chords, List.filter_filter]
  · refine ⟨back.filter (·.key ≠ chordInstrument), fun _ => by simp, ?_⟩
    rw [linesBefore, if_neg chords]
    exact readMusicLines_split c stepVelocity depth lines chords

theorem WritesMeasure.isSolid {instrument : Text}
    (writes : WritesMeasure c stepVelocity depth s instrument m words) :
    words ≠ [] ∧ ∀ word ∈ words, word.IsSolid := by
  obtain ⟨front, line, back, -, -, i, row, -⟩ := writes
  exact mem_wordRows (List.mem_of_getElem? row)

theorem WritesMeasure.isLaidOut (writes : WritesMeasure c stepVelocity depth s chordInstrument m words) :
    IsLaidOut (contextOf c (instrumentOf c stepVelocity chordInstrument)) m words
      ((readMusicLines c stepVelocity depth s).1.measuresOf chordInstrument) := by
  obtain ⟨front, line, back, lines, chords, i, row, rfl⟩ := writes
  obtain ⟨after, -, split⟩ := readMusicLines_after c stepVelocity depth lines
  have other := category_chordInstrument c stepVelocity
  rw [split]
  apply stable_foldl_readMusicLine c stepVelocity depth (isStable_isLaidOut _ _ _)
  rw [readMusicLine, measuresOf_insert, if_pos chords.symm, chords]
  exact row_addLine (isStable_isLaidOut _) _ _ _ (isLaidOut_barOf other _ _) _ _ row

theorem WritesMeasure.reads {instrument : Text} (plays : instrument ≠ chordInstrument)
    (writes : WritesMeasure c stepVelocity depth s instrument m words) :
    Reads (contextOf c (instrumentOf c stepVelocity instrument))
      (readMusicLines c stepVelocity depth s).1.chordAt m words
      ((readMusicLines c stepVelocity depth s).1.measuresOf instrument) := by
  obtain ⟨front, line, back, lines, rfl, i, row, rfl⟩ := writes
  obtain ⟨after, others, split⟩ := readMusicLines_after c stepVelocity depth lines
  rw [split]
  exact reads_line_then_others c stepVelocity depth _ (List.forall_mem_cons.2 ⟨plays, others plays⟩) row

theorem hasChords_of_isLaidOut {ctx : Context}
    (laid : IsLaidOut ctx m words ((readMusicLines c stepVelocity depth s).1.measuresOf chordInstrument)) :
    ∃ measure, (readMusicLines c stepVelocity depth s).1.HasChords m (sharesOf words ctx.budget) measure ∧
      measure.duration = sharesOf words ctx.budget ∧
      measure.map Step.text = rowTexts ctx (heldText
        (((readMusicLines c stepVelocity depth s).1.measuresOf chordInstrument).take m)) words ∧
      ∀ step ∈ measure, 1 ≤ step.length := by
  obtain ⟨measure, here, duration⟩ := Option.map_eq_some_iff.1 (List.getElem?_map .. ▸ laid.duration)
  have texts := laid.texts
  rw [List.getElem?_map, here, Option.map_some, Option.some_inj] at texts
  have long := long_readMusicLines c stepVelocity depth s chordInstrument measure (List.mem_of_getElem? here)
  have covered (t : Int) :=
    Measure.exists_covers_iff (fun step member => Int.le_of_lt (long step member)) t
  rw [duration] at covered
  have named (t : Int) := isTextAt_chordAt c stepVelocity depth s m t
  rw [here] at named
  refine ⟨measure, ⟨here, covered, fun n step t covers => ((named t).covered n step covers).1,
    fun t outside => (named t).silent fun n step covers => outside ((covered t).1 ⟨n, step, covers⟩)⟩,
    duration, texts, long⟩

/-- The chords of a bar sound from its start for the shares of their words, so they cover the bar exactly if
the shares add up to it: when nothing has to be rounded, and with words of one unit only when their number
divides the bar or is not below it. Every word of another instrument is read for the chord that sounds at its
place in the same bar. -/
theorem chords_sound_for_their_shares (writes : WritesMeasure c stepVelocity depth s chordInstrument m words) :
    let finished := (readMusicLines c stepVelocity depth s).1
    let budget := c.grid.stepsPerMeasure
    let finish := sharesOf words budget
    let held := heldText ((finished.measuresOf chordInstrument).take m)
    ∃ measure, finished.HasChords m finish measure ∧
      ((∀ t, 0 ≤ t → t < budget → ∃ n step, measure.Covers n step t) ↔ budget ≤ finish) ∧
      (SharesEvenly words budget → budget ≤ finish) ∧
      ((∀ word ∈ words, IsBeat word) →
        (budget ≤ finish ↔ (words.length : Int) ∣ budget ∨ budget ≤ words.length)) ∧
      measure.map Step.text = rowTexts (contextOf c (instrumentOf c stepVelocity chordInstrument)) held words ∧
      ((∀ t, 0 ≤ t → t < finish → finished.chordAt m t ≠ []) ↔
        ¬(OpensTied words ∧ held = []) ∧ ∀ word ∈ words, IsPlain word →
          ¬IsMute (contextOf c (instrumentOf c stepVelocity chordInstrument)) word) ∧
      ∀ instrument words', instrument ≠ chordInstrument →
        WritesMeasure c stepVelocity depth s instrument m words' →
        let ctx := contextOf c (instrumentOf c stepVelocity instrument)
        Reads ctx finished.chordAt m words' (finished.measuresOf instrument) ∧
          ∀ part extent, AsksFor ctx part extent → finished.Answers m finish measure ctx part extent := by
  intro finished budget finish held
  obtain ⟨present, solid⟩ := WritesMeasure.isSolid c stepVelocity depth writes
  obtain ⟨measure, has, duration, texts, long⟩ := hasChords_of_isLaidOut c stepVelocity depth
    (WritesMeasure.isLaidOut c stepVelocity depth writes)
  have whole :=
    Measure.forall_exists_covers_iff (fun step member => Int.le_of_lt (long step member)) budget
  have named := Measure.texts_present_iff long has.named
  have silent := nil_mem_rowTexts (category_chordInstrument c stepVelocity) solid held
  rw [duration] at whole named
  rw [texts, silent] at named
  refine ⟨measure, has, whole, le_sharesOf, fun beats => le_sharesOf_of_beats_iff present beats budget, texts, ?_,
    fun instrument words' plays writes' => ⟨WritesMeasure.reads c stepVelocity depth plays writes',
      fun part extent asks => has.answers asks⟩⟩
  refine named.trans ?_
  push Not
  rfl

def fourBeats : Script.Section :=
  { name := "a"
    number := 1
    lines := [⟨"piano", "1 2 3 root", 2⟩, ⟨"chord", "1M - 4M 5D7", 3⟩] }

theorem chords_sound_for_their_shares_of_fourBeats :
    WritesMeasure onePiano 80 8 fourBeats chordInstrument 0 ["1M", "-", "4M", "5D7"] ∧
      ∃ measure, (readMusicLines onePiano 80 8 fourBeats).1.HasChords 0 48 measure ∧
        ∀ t, 0 ≤ t → t < 48 → (readMusicLines onePiano 80 8 fourBeats).1.chordAt 0 t ≠ [] := by
  have writes : WritesMeasure onePiano 80 8 fourBeats chordInstrument 0 ["1M", "-", "4M", "5D7"] :=
    ⟨[⟨"piano", "1 2 3 root", 2⟩], ⟨"chord", "1M - 4M 5D7", 3⟩, [], rfl, rfl, 0, by decide +kernel,
      by decide +kernel⟩
  obtain ⟨measure, has, -, -, -, -, named, -⟩ := chords_sound_for_their_shares onePiano 80 8 writes
  have shares : sharesOf ["1M", "-", "4M", "5D7"] onePiano.grid.stepsPerMeasure = 48 := by decide +kernel
  rw [shares] at has named
  exact ⟨writes, measure, has, named.2 ⟨by decide, by decide +kernel⟩⟩

def fiveChords : Script.Section :=
  { name := "a"
    number := 1
    lines := [⟨"chord", "1M 4M 5M 6m 2m", 2⟩, ⟨"piano", "1 1 1 1 1 1 1 1 1 1 1 1 1 1 1 root", 3⟩] }

theorem root_behind_fiveChords :
    WritesMeasure onePiano 80 8 fiveChords chordInstrument 0 ["1M", "4M", "5M", "6m", "2m"] ∧
      IsPlain "1M" ∧
      (¬∀ t, 0 ≤ t → t < onePiano.grid.stepsPerMeasure →
        (readMusicLines onePiano 80 8 fiveChords).1.chordAt 0 t ≠ []) ∧
      (readMusicLines onePiano 80 8 fiveChords).2 = [⟨.invalidChord, "root", 3⟩] :=
  ⟨⟨[], ⟨"chord", "1M 4M 5M 6m 2m", 2⟩, _, rfl, rfl, 0, by decide +kernel, by decide +kernel⟩, by decide,
    fun present => present 45 (by decide) (by decide) (by decide +kernel), by decide +kernel⟩

end Score

end ScoreScript
