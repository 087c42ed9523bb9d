import ScoreScript.Phrase.Repetition
import ScoreScript.Proofs.Replacement

set_option autoImplicit false

namespace ScoreScript

namespace Text

theorem words_go_ne_nil (pending t : Text) (present : pending ≠ []) : words.go pending t ≠ [] := by
  induction t generalizing pending with
  | nil => simp [words.go, words.finished, present]
  | cons c rest ih =>
    rw [words.go]
    split_ifs
    · simp [words.finished, present]
    · simp
    · exact ih _ (by simp)

theorem words_eq_nil {t : Text} : words t = [] ↔ ∀ c ∈ t, isBlank c = true := by
  unfold words
  induction t with
  | nil => simp [words.go, words.finished]
  | cons c rest ih =>
    rw [words.go, List.forall_mem_cons]
    by_cases blank : isBlank c = true
    · rw [if_pos blank, ← ih]
      simp [words.finished, blank]
    · rw [if_neg blank]
      split_ifs
      · simp [words.finished, blank]
      · simp [words_go_ne_nil, blank]

end Text

namespace Phrase

def IsRepetition (phrase : Text) : Prop := name phrase = repeatPrevious ∨ name phrase = repeatCycle

def IsBlank (phrase : Text) : Prop :=
  ∀ c ∈ Text.trimBoth (· = '"') (Text.trim phrase), Text.isBlank c = true

instance (phrase : Text) : Decidable (IsRepetition phrase) := inferInstanceAs (Decidable (_ ∨ _))

instance (phrase : Text) : Decidable (IsBlank phrase) := inferInstanceAs (Decidable (∀ c ∈ _, _))

theorem mem_of_mem_cycle {count : Nat} {phrases : List Text} {phrase : Text}
    (member : phrase ∈ cycle count phrases) : phrase ∈ phrases := by
  obtain ⟨k, -, found⟩ := List.mem_filterMap.1 member
  exact List.mem_of_getElem? found

theorem forall_repeatFrom (keeps : Text → Prop) (silent : keeps silence) (count line : Int)
    (done phrases : List Text) : (∀ phrase ∈ (repeatFrom count line done phrases).1, keeps phrase) ↔
      (∀ phrase ∈ done, keeps phrase) ∧ ∀ phrase ∈ phrases, IsRepetition phrase ∨ keeps phrase := by
  induction phrases generalizing done with
  | nil => simp [repeatFrom]
  | cons phrase rest ih =>
    rw [repeatFrom, List.forall_mem_cons]
    split_ifs with previous cycles nothing
    · rw [ih, List.forall_mem_append, List.forall_mem_singleton]
      have copied (whole : ∀ phrase ∈ done, keeps phrase) : keeps (done.getLast?.getD silence) := by
        cases last : done.getLast? with
        | none => exact silent
        | some copy => exact whole copy (List.mem_of_getLast? last)
      have repeats : IsRepetition phrase := .inl previous
      tauto
    · have repeats : IsRepetition phrase := .inr cycles
      simp [ih, nothing, silent, repeats]
    · rw [ih, List.forall_mem_append]
      have copied (whole : ∀ phrase ∈ done, keeps phrase) :
          ∀ phrase ∈ cycle (count - rest.length - done.length).toNat done, keeps phrase :=
        fun copy member => whole copy (mem_of_mem_cycle member)
      have repeats : IsRepetition phrase := .inr cycles
      tauto
    · rw [ih, List.forall_mem_append, List.forall_mem_singleton]
      have written : ¬IsRepetition phrase := not_or.2 ⟨previous, cycles⟩
      tauto

theorem length_cycle (count : Nat) {phrases : List Text} (present : phrases ≠ []) :
    (cycle count phrases).length = count := by
  have found : ∀ k ∈ List.range count, (phrases[k % phrases.length]?).isSome = true := by
    intro k _
    have bound := Nat.mod_lt k (List.length_pos_iff.2 present)
    simp [List.getElem?_eq_getElem bound]
  rw [cycle, List.filterMap_length_eq_length.2 found, List.length_range]

def cycleCount (phrases : List Text) : Nat := phrases.countP (name · = repeatCycle)

theorem cycleCount_cons (phrase : Text) (rest : List Text) :
    cycleCount (phrase :: rest) = cycleCount rest + if name phrase = repeatCycle then 1 else 0 := by
  simp [cycleCount, List.countP_cons]

theorem length_repeatFrom (count line : Int) {done : List Text} (begun : done ≠ [])
    (phrases : List Text) : ((repeatFrom count line done phrases).1.length : Int) =
      if cycleCount phrases = 0 then (done.length + phrases.length : Int)
      else max count (done.length + phrases.length - cycleCount phrases) := by
  induction phrases generalizing done with
  | nil => simp [repeatFrom, cycleCount]
  | cons phrase rest ih =>
    have most : cycleCount rest ≤ rest.length := List.countP_le_length
    rw [repeatFrom, cycleCount_cons]
    by_cases cycles : name phrase = repeatCycle
    · have other : name phrase ≠ repeatPrevious := by
        rw [cycles]
        decide
      rw [if_neg other, if_pos cycles, if_neg begun, if_pos cycles, ih (by simp [begun]),
        if_neg (Nat.succ_ne_zero _), List.length_append, length_cycle _ begun, List.length_cons]
      by_cases last : cycleCount rest = 0
      · rw [if_pos last]
        omega
      · rw [if_neg last]
        omega
    · have more (copy : Text) : (done ++ [copy]).length + rest.length =
          done.length + (phrase :: rest).length := by
        simp only [List.length_append, List.length_cons, List.length_nil]
        omega
      rw [if_neg cycles, if_neg cycles, Nat.add_zero]
      split <;> rw [ih (by simp), ← Int.natCast_add, more, Int.natCast_add]

theorem length_expandRepetitions (count line : Int) (first : Text) (rest : List Text) :
    ((expandRepetitions count line (first :: rest)).1.length : Int) =
      if cycleCount rest = 0 then (1 + rest.length : Int)
      else max count (1 + rest.length - cycleCount rest) := by
  have begins : ∃ phrase, (expandRepetitions count line (first :: rest)).1 =
      (repeatFrom count line [phrase] rest).1 := by
    rw [expandRepetitions, repeatFrom, if_pos rfl]
    split_ifs
    · exact ⟨_, rfl⟩
    · exact ⟨_, rfl⟩
    · exact ⟨first, rfl⟩
  obtain ⟨phrase, same⟩ := begins
  rw [same, length_repeatFrom count line (by simp) rest]
  rfl

end Phrase

namespace Notation

open Phrase

theorem length_wordRows_eq {phrases : List Text} :
    (wordRows phrases).length = phrases.length ↔ ∀ phrase ∈ phrases, Text.words phrase ≠ [] := by
  rw [wordRows, ← List.length_map Text.words, List.length_filter_eq_length_iff, List.forall_mem_map]
  simp

variable (ctx : Context) (chordAt : Nat → Int → Text) (line : Int) (measures : List Measure)

/-- A line becomes one measure for each of its phrases exactly if none of those that are written is blank.
A repetition of all phrases makes it span as many as it is asked to, if it has no more phrases. -/
theorem measure_for_each_phrase_iff (sequences : Table Text) (count : Int) (depth : Nat) (value : Text) :
    let expanded := (expandSequences sequences depth line (split value)).1
    let phrases := (ofLine sequences count depth line value).1
    ((addLine ctx chordAt line measures phrases).1.length = measures.length + phrases.length ↔
      ∀ phrase ∈ expanded, IsRepetition phrase ∨ ¬IsBlank phrase) ∧
    ∀ before mark after, expanded = before ++ mark :: after → before ≠ [] → name mark = repeatCycle →
      (before.length + after.length : Int) ≤ count → (phrases.length : Int) = count := by
  intro expanded phrases
  constructor
  · rw [length_addLine, Nat.add_left_cancel_iff, length_wordRows_eq]
    have words (phrase : Text) :
        Text.words (Text.trimBoth (· = '"') (Text.trim phrase)) ≠ [] ↔ ¬IsBlank phrase :=
      not_congr Text.words_eq_nil
    have written := forall_repeatFrom (¬IsBlank ·) (by decide) count line [] expanded
    simp only [phrases, ofLine, List.forall_mem_map, words]
    exact written.trans (and_iff_right (by simp))
  · intro before mark after split begun cycles room
    obtain ⟨first, more, rfl⟩ := List.exists_cons_of_ne_nil begun
    have most : 1 ≤ cycleCount (more ++ mark :: after) :=
      List.countP_pos_iff.2 ⟨mark, by simp, by simpa using cycles⟩
    have length := length_expandRepetitions count line first (more ++ mark :: after)
    have same : phrases.length = (expandRepetitions count line expanded).1.length := by
      simp [phrases, ofLine, expanded]
    rw [same, split, List.cons_append, length, if_neg (by omega)]
    simp only [List.length_append, List.length_cons] at room ⊢
    omega

theorem measure_for_each_phrase_iff_of_filled_line :
    (∀ phrase ∈ (expandSequences [] 8 1 (split "1 2 | ( ) | ...")).1,
        IsRepetition phrase ∨ ¬IsBlank phrase) ∧
      (addLine {} (fun _ _ => []) 1 [] (ofLine [] 5 8 1 "1 2 | ( ) | ...").1).1.length = 5 := by
  obtain ⟨each, fills⟩ :=
    measure_for_each_phrase_iff {} (fun _ _ => []) 1 [] [] 5 8 "1 2 | ( ) | ..."
  have written : ∀ phrase ∈ (expandSequences [] 8 1 (split "1 2 | ( ) | ...")).1,
      IsRepetition phrase ∨ ¬IsBlank phrase := by decide
  have filled := fills ["1 2 ", " ( ) "] " ..." [] (by decide) (by decide) (by decide) (by decide)
  refine ⟨written, ?_⟩
  rw [each.2 written]
  simpa using Int.ofNat_inj.1 filled

theorem blank_phrase_has_no_measure : (ofLine [] 4 8 1 "1 | | ...").1.length = 4 ∧
    (addLine {} (fun _ _ => []) 1 [] (ofLine [] 4 8 1 "1 | | ...").1).1.length = 2 := by
  decide +kernel

end Notation

end ScoreScript
