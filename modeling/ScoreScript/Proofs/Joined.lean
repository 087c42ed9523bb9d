import ScoreScript.Proofs.Trimmed

set_option autoImplicit false

namespace ScoreScript

namespace Phrase

open Text

variable {sequences : Table Text} {first second blanks done phrases : List Text}

theorem expandPasses_append (depth : Nat) (first second : List Text) :
    expandPasses sequences depth (first ++ second) =
      expandPasses sequences depth first ++ expandPasses sequences depth second := by
  induction depth generalizing first second with
  | zero => rfl
  | succ depth ih =>
    rw [expandPasses_succ, expandPasses_succ, expandPasses_succ, List.flatMap_append, ih]

theorem expandSequences_append (sequences : Table Text) (depth : Nat) (line : Int) (first second : List Text) :
    (expandSequences sequences depth line (first ++ second)).1 =
      (expandSequences sequences depth line first).1 ++ (expandSequences sequences depth line second).1 := by
  rw [expandSequences_eq, expandSequences_eq, expandSequences_eq, expandPasses_append, List.map_append]

theorem expandSequences_line (depth : Nat) (line line' : Int) (phrases : List Text) :
    (expandSequences sequences depth line phrases).1 = (expandSequences sequences depth line' phrases).1 := by
  rw [expandSequences_eq, expandSequences_eq]

theorem expandSequences_of_plain (depth : Nat) (line : Int)
    (plain : ∀ p ∈ phrases, isCall sequences p = false) :
    (expandSequences sequences depth line phrases).1 = phrases := by
  have idle : ¬phrases.any (isCall sequences) = true := by simpa using plain
  have kept : expandPasses sequences depth phrases = phrases := by
    cases depth with
    | zero => rfl
    | succ depth => rw [expandPasses, if_neg idle]
  have each : ∀ p ∈ phrases, silenced sequences p = p := fun p member => by simp [silenced, plain p member]
  rw [expandSequences_eq, kept, List.map_congr_left each, List.map_id']

theorem repeatFrom_line (count line line' : Int) (done phrases : List Text) :
    (repeatFrom count line done phrases).1 = (repeatFrom count line' done phrases).1 := by
  induction phrases generalizing done with
  | nil => rfl
  | cons p rest ih =>
    rw [repeatFrom, repeatFrom]
    split_ifs <;> exact ih _

theorem repeatFrom_append (count line : Int) (done : List Text) {first : List Text}
    (calm : ∀ p ∈ first, name p ≠ repeatCycle) (second : List Text) :
    (repeatFrom count line done (first ++ second)).1 =
      (repeatFrom count line (repeatFrom count line done first).1 second).1 := by
  induction first generalizing done with
  | nil => rfl
  | cons p rest ih =>
    obtain ⟨here, later⟩ := List.forall_mem_cons.1 calm
    rw [List.cons_append, repeatFrom, repeatFrom, if_neg here, if_neg here]
    split <;> exact ih _ later

theorem repeatFrom_behind (count count' line line' : Int) (done : List Text) {copied : List Text}
    (begun : copied ≠ []) {phrases : List Text} (calm : ∀ p ∈ phrases, name p ≠ repeatCycle) :
    (repeatFrom count line (done ++ copied) phrases).1 =
      done ++ (repeatFrom count' line' copied phrases).1 := by
  induction phrases generalizing copied with
  | nil => rfl
  | cons p rest ih =>
    obtain ⟨here, later⟩ := List.forall_mem_cons.1 calm
    rw [repeatFrom, repeatFrom, if_neg here, if_neg here, List.getLast?_append_of_ne_nil _ begun]
    split <;> rw [List.append_assoc] <;> exact ih (by simp) later

theorem repeatFrom_fresh (count count' line line' : Int) (done : List Text)
    (calm : ∀ p ∈ phrases, name p ≠ repeatCycle) (fresh : ∀ p ∈ phrases.head?, name p ≠ repeatPrevious) :
    (repeatFrom count line done phrases).1 = done ++ (repeatFrom count' line' [] phrases).1 := by
  cases phrases with
  | nil => simp [repeatFrom]
  | cons p rest =>
    obtain ⟨here, later⟩ := List.forall_mem_cons.1 calm
    rw [repeatFrom, repeatFrom, if_neg (fresh p rfl), if_neg here, if_neg (fresh p rfl), if_neg here]
    exact repeatFrom_behind count count' line line' done (by simp) later

theorem repeatFrom_blanks (count line : Int) (done : List Text) (blank : ∀ p ∈ blanks, p = [])
    (phrases : List Text) : (repeatFrom count line done (blanks ++ phrases)).1 =
      (repeatFrom count line (done ++ blanks) phrases).1 := by
  induction blanks generalizing done with
  | nil => simp
  | cons p rest ih =>
    obtain ⟨rfl, later⟩ := List.forall_mem_cons.1 blank
    rw [List.cons_append, repeatFrom, if_neg (by decide), if_neg (by decide), ih _ later,
      List.append_assoc, List.singleton_append]

theorem repeatFrom_joined (count count' line line' line'' : Int)
    (calm : ∀ p ∈ first.tail, name p ≠ repeatCycle) (blank : ∀ p ∈ blanks, p = [])
    (calm' : ∀ p ∈ second, name p ≠ repeatCycle) (fresh : ∀ p ∈ second.head?, name p ≠ repeatPrevious) :
    (repeatFrom count line [] (first ++ blanks ++ second)).1 =
      (repeatFrom count line' [] first).1 ++ blanks ++ (repeatFrom count' line'' [] second).1 := by
  have behind (done : List Text) : (repeatFrom count line done (blanks ++ second)).1 =
      done ++ blanks ++ (repeatFrom count' line'' [] second).1 := by
    rw [repeatFrom_blanks count line done blank, repeatFrom_fresh count count' line line'' _ calm' fresh]
  rw [List.append_assoc, repeatFrom_line count line' line]
  cases first with
  | nil => exact behind []
  | cons p rest =>
    -- a repetition of all phrases at the start has none before it
    have calm : ∀ p ∈ rest, name p ≠ repeatCycle := calm
    rw [List.cons_append, repeatFrom, repeatFrom]
    split_ifs
    · rw [repeatFrom_append count line _ calm, behind]
    · exact (repeatFrom_append count line _ calm _).trans (behind _)
    · contradiction
    · rw [repeatFrom_append count line _ calm, behind]

theorem split_append (t u : Text) : split (t ++ .char '|' :: u) = split t ++ split u := by
  unfold split fields
  rw [List.splitOn_eq_splitOnP, List.splitOnP_append_cons _ _ (by decide), List.filter_append]
  rfl

theorem split_of_absent {t : Text} (present : t ≠ []) (absent : .char '|' ∉ t) : split t = [t] := by
  simp [split, fields, splitOn_of_notMem absent, present]

theorem not_mem_of_blank {w : Text} (blank : AllBlank w) : .char '|' ∉ w :=
  not_mem_of_allBlank blank (by decide)

theorem map_trim_split_left {w t : Text} (blank : AllBlank w) (spaced : w ≠ []) (present : t ≠ []) :
    ∃ blanks, (split (w ++ t)).map trim = blanks ++ (split t).map trim ∧ (∀ p ∈ blanks, p = []) ∧
      (t.head? ≠ some (.char '|') → blanks = []) := by
  have alone := split_of_absent spaced (not_mem_of_blank blank)
  by_cases bar : .char '|' ∈ t
  · obtain ⟨y, u, rfl, absent⟩ := List.eq_append_cons_of_mem bar
    rw [← List.append_assoc, split_append, split_append]
    by_cases start : y = []
    · subst start
      refine ⟨[[]], ?_, by simp, fun other => absurd rfl other⟩
      rw [List.append_nil, alone, List.map_append, List.map_singleton, trim_eq_nil blank]
      rfl
    · have absent' : .char '|' ∉ w ++ y := by simp [absent, not_mem_of_blank blank]
      refine ⟨[], ?_, by simp, fun _ => rfl⟩
      rw [split_of_absent start absent, split_of_absent (by simp [spaced]) absent']
      simp [trim_append_left blank]
  · have bar' : .char '|' ∉ w ++ t := by simp [bar, not_mem_of_blank blank]
    refine ⟨[], ?_, by simp, fun _ => rfl⟩
    rw [split_of_absent present bar, split_of_absent (by simp [spaced]) bar']
    simp [trim_append_left blank]

theorem exists_eq_append_last {c : CodePoint} {t : Text} (member : c ∈ t) :
    ∃ u y, t = u ++ c :: y ∧ c ∉ y := by
  obtain ⟨y, u, back, absent⟩ := List.eq_append_cons_of_mem (List.mem_reverse.2 member)
  refine ⟨u.reverse, y.reverse, ?_, by simpa using absent⟩
  simpa using congrArg List.reverse back

theorem map_trim_split_right {w t : Text} (blank : AllBlank w) (spaced : w ≠ []) (present : t ≠ []) :
    ∃ blanks, (split (t ++ w)).map trim = (split t).map trim ++ blanks ∧ (∀ p ∈ blanks, p = []) ∧
      (t.getLast? ≠ some (.char '|') → blanks = []) := by
  have alone := split_of_absent spaced (not_mem_of_blank blank)
  by_cases bar : .char '|' ∈ t
  · obtain ⟨u, y, rfl, absent⟩ := exists_eq_append_last bar
    rw [List.append_assoc, List.cons_append, split_append, split_append]
    by_cases finish : y = []
    · subst finish
      refine ⟨[[]], ?_, by simp, fun other => absurd (by simp) other⟩
      rw [List.nil_append, alone, List.map_append, List.map_singleton, trim_eq_nil blank]
      simp [split, fields]
    · have absent' : .char '|' ∉ y ++ w := by simp [absent, not_mem_of_blank blank]
      refine ⟨[], ?_, by simp, fun _ => rfl⟩
      rw [split_of_absent finish absent, split_of_absent (by simp [spaced]) absent']
      simp [trim_append_right blank]
  · have bar' : .char '|' ∉ t ++ w := by simp [bar, not_mem_of_blank blank]
    refine ⟨[], ?_, by simp, fun _ => rfl⟩
    rw [split_of_absent present bar, split_of_absent (by simp [spaced]) bar']
    simp [trim_append_right blank]

def barBetween : Text := " | "

theorem map_trim_split_joined {first second : Text} (present : trim first ≠ [])
    (present' : trim second ≠ []) :
    ∃ blanks, (split (trim (first ++ barBetween ++ second))).map trim =
        (split (trim first)).map trim ++ blanks ++ (split (trim second)).map trim ∧
      (∀ p ∈ blanks, p = []) ∧ ((trim first).getLast? ≠ some (.char '|') →
        (trim second).head? ≠ some (.char '|') → blanks = []) := by
  obtain ⟨w, v, behind, before', inner⟩ := exists_trim_between present present' barBetween
  have blank : AllBlank [.char ' '] := by simp [AllBlank, isBlank, CodePoint.toNat]
  have bar : trim (first ++ barBetween ++ second) = (trim first ++ (w ++ [.char ' '])) ++
      .char '|' :: (([.char ' '] ++ v) ++ trim second) := by
    rw [inner]
    simp [barBetween, Text.of]
  obtain ⟨blanks, right, empty, alone⟩ := map_trim_split_right (behind.append blank) (by simp) present
  obtain ⟨blanks', left, empty', alone'⟩ := map_trim_split_left (blank.append before') (by simp) present'
  refine ⟨blanks ++ blanks', ?_, List.forall_mem_append.2 ⟨empty, empty'⟩, fun first second => ?_⟩
  · rw [bar, split_append, List.map_append, right, left]
    simp
  · rw [alone first, alone' second, List.append_nil]

/-- Whether a line can be broken at a bar between two values: no repetition of all phrases has to count the
phrases on the other side or looks back over the bar, and no blank phrase at the bar is a call. -/
structure Parts (sequences : Table Text) (depth : Nat) (first second : Text) : Prop where
  counted : ∀ p ∈ (expandSequences sequences depth 0 (split (trim first))).1.tail, name p ≠ repeatCycle
  calm : ∀ p ∈ (expandSequences sequences depth 0 (split (trim second))).1, name p ≠ repeatCycle
  fresh : ∀ p ∈ (expandSequences sequences depth 0 (split (trim second))).1.head?, name p ≠ repeatPrevious
  bars : sequences.find? [] = none ∨
    (trim first).getLast? ≠ some (.char '|') ∧ (trim second).head? ≠ some (.char '|')

instance (sequences : Table Text) (depth : Nat) (first second : Text) :
    Decidable (Parts sequences depth first second) :=
  decidable_of_iff (_ ∧ _ ∧ _ ∧ _)
    ⟨fun ⟨counted, calm, fresh, bars⟩ => ⟨counted, calm, fresh, bars⟩,
      fun ⟨counted, calm, fresh, bars⟩ => ⟨counted, calm, fresh, bars⟩⟩

end Phrase

namespace Notation

open Phrase Text

theorem wordRows_append (first second : List Text) :
    wordRows (first ++ second) = wordRows first ++ wordRows second := by
  simp [wordRows]

def barePhrases (phrases : List Text) : List (List Text) :=
  wordRows ((phrases.map trim).map (trimBoth (· = '"')))

theorem barePhrases_append (first second : List Text) :
    barePhrases (first ++ second) = barePhrases first ++ barePhrases second := by
  rw [barePhrases, List.map_append, List.map_append, wordRows_append]
  rfl

theorem barePhrases_blanks {blanks : List Text} (empty : ∀ p ∈ blanks, p = []) :
    barePhrases blanks = [] := by
  have words : ∀ p ∈ blanks, Text.words (trimBoth (· = '"') (trim p)) = [] := by
    intro p member
    rw [empty p member]
    rfl
  simpa [barePhrases, wordRows] using words

theorem wordRows_ofLine (sequences : Table Text) (count : Int) (depth : Nat) (line : Int) (value : Text) :
    wordRows (ofLine sequences count depth line value).1 =
      barePhrases (repeatFrom count line [] (expandSequences sequences depth 0 (split value)).1).1 := by
  rw [expandSequences_line depth 0 line, barePhrases, List.map_map]
  rfl

theorem wordRows_joined {sequences : Table Text} {depth : Nat} {first second : Text}
    (present : trim first ≠ []) (present' : trim second ≠ []) (parts : Parts sequences depth first second)
    (count count' line line' line'' : Int) :
    wordRows (ofLine sequences count depth line (trim (first ++ barBetween ++ second))).1 =
      wordRows (ofLine sequences count depth line' (trim first)).1 ++
        wordRows (ofLine sequences count' depth line'' (trim second)).1 := by
  obtain ⟨blanks, phrases, empty, alone⟩ := map_trim_split_joined present present'
  have plain : ∀ p ∈ blanks, isCall sequences p = false := by
    intro p member
    rcases parts.bars with absent | ⟨finish, start⟩
    · have called : name [] = [] := by decide
      rw [empty p member, isCall, Table.contains, called, absent]
      rfl
    · rw [alone finish start] at member
      cases member
  have kept : blanks.map trim = blanks := by
    have each : ∀ p ∈ blanks, trim p = p := fun p member => by rw [empty p member, trim_nil]
    rw [List.map_congr_left each, List.map_id']
  have expanded : (expandSequences sequences depth 0 (split (trim (first ++ barBetween ++ second)))).1.map trim =
      ((expandSequences sequences depth 0 (split (trim first))).1 ++ blanks ++
        (expandSequences sequences depth 0 (split (trim second))).1).map trim := by
    rw [← expandSequences_of_plain depth 0 plain, ← expandSequences_append, ← expandSequences_append]
    apply expandSequences_trim
    rw [phrases, List.map_append, List.map_append, kept]
  have repeated := repeatFrom_trim count line line (rfl : ([] : List Text).map trim = _) expanded
  rw [wordRows_ofLine, barePhrases, repeated, ← barePhrases, wordRows_ofLine, wordRows_ofLine,
    repeatFrom_joined count count' line line' line'' parts.counted empty parts.calm parts.fresh,
    barePhrases_append, barePhrases_append, barePhrases_blanks empty, List.append_nil]

end Notation

end ScoreScript
