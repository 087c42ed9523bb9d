import Mathlib.Data.List.TakeWhile
import ScoreScript.Proofs.MeasureCount

set_option autoImplicit false

namespace ScoreScript

namespace Text

def AllBlank (t : Text) : Prop := ∀ c ∈ t, isBlank c = true

variable {w w' t u : Text}

theorem allBlank_nil : AllBlank [] := by simp [AllBlank]

theorem AllBlank.append (first : AllBlank w) (second : AllBlank w') : AllBlank (w ++ w') :=
  List.forall_mem_append.2 ⟨first, second⟩

theorem not_mem_of_allBlank {c : CodePoint} (blank : AllBlank w) (other : isBlank c = false) : c ∉ w :=
  fun member => by simp [blank c member] at other

theorem trim_append_left (blank : AllBlank w) (t : Text) : trim (w ++ t) = trim t := by
  rw [trim, trimBoth, List.dropWhile_append_of_pos blank]
  rfl

theorem trim_append_right (blank : AllBlank w) (t : Text) : trim (t ++ w) = trim t := by
  unfold trim trimBoth
  rw [List.dropWhile_append]
  split
  next empty =>
    rw [List.isEmpty_iff.1 empty, List.dropWhile_eq_nil_iff.2 blank]
  next =>
    have back : ∀ c ∈ w.reverse, isBlank c = true := fun c member => blank c (List.mem_reverse.1 member)
    rw [trimRight, List.reverse_append, List.dropWhile_append_of_pos back, trimRight]

theorem exists_eq_trimRight (t : Text) : ∃ w, AllBlank w ∧ t = trimRight isBlank t ++ w := by
  refine ⟨(t.reverse.takeWhile isBlank).reverse,
    fun c member => List.mem_takeWhile_imp (List.mem_reverse.1 member), ?_⟩
  rw [trimRight, ← List.reverse_append, List.takeWhile_append_dropWhile, List.reverse_reverse]

theorem exists_eq_trim (t : Text) : ∃ w w', AllBlank w ∧ AllBlank w' ∧ t = w ++ trim t ++ w' := by
  obtain ⟨w', blank, back⟩ := exists_eq_trimRight (t.dropWhile isBlank)
  refine ⟨t.takeWhile isBlank, w', fun c member => List.mem_takeWhile_imp member, blank, ?_⟩
  rw [trim, trimBoth, List.append_assoc, ← back, List.takeWhile_append_dropWhile]

theorem trim_isInfix (t : Text) : trim t <:+: t := by
  obtain ⟨w, w', -, -, whole⟩ := exists_eq_trim t
  exact ⟨w, w', whole.symm⟩

theorem mem_of_mem_trim {c : CodePoint} (inside : c ∈ trim t) : c ∈ t := (trim_isInfix t).subset inside

theorem mem_trim {c : CodePoint} (visible : isBlank c = false) (member : c ∈ t) : c ∈ trim t := by
  obtain ⟨w, w', before, behind, whole⟩ := exists_eq_trim t
  rw [whole, List.mem_append, List.mem_append] at member
  rcases member with (left | inside) | right
  · exact absurd left (not_mem_of_allBlank before visible)
  · exact inside
  · exact absurd right (not_mem_of_allBlank behind visible)

theorem trim_eq_nil (blank : AllBlank t) : trim t = [] := by
  rw [trim, trimBoth, List.dropWhile_eq_nil_iff.2 blank]
  rfl

theorem allBlank_of_trim (gone : trim t = []) : AllBlank t := by
  obtain ⟨w, w', before, behind, whole⟩ := exists_eq_trim t
  rw [whole, gone, List.append_nil]
  exact before.append behind

theorem head_trim (t : Text) : ∀ c ∈ (trim t).head?, isBlank c = false := by
  intro c first
  obtain ⟨w', -, back⟩ := exists_eq_trimRight (t.dropWhile isBlank)
  obtain ⟨rest, start⟩ := List.head?_eq_some_iff.1 first
  have front := List.head?_dropWhile_not isBlank t
  rw [trim, trimBoth] at start
  rw [back, start] at front
  exact front

theorem getLast_trim (t : Text) : ∀ c ∈ (trim t).getLast?, isBlank c = false := by
  intro c last
  have front := List.head?_dropWhile_not isBlank (t.dropWhile isBlank).reverse
  rw [trim, trimBoth, trimRight, List.getLast?_reverse] at last
  rw [last] at front
  exact front

theorem trim_eq_self (first : ∀ c ∈ t.head?, isBlank c = false)
    (last : ∀ c ∈ t.getLast?, isBlank c = false) : trim t = t := by
  have stays {t : Text} (first : ∀ c ∈ t.head?, isBlank c = false) : t.dropWhile isBlank = t := by
    cases t with
    | nil => rfl
    | cons c rest => rw [List.dropWhile_cons_of_neg (by simp [first c rfl])]
  rw [trim, trimBoth, stays first, trimRight, stays (by rwa [List.head?_reverse]), List.reverse_reverse]

theorem trim_trim (t : Text) : trim (trim t) = trim t := trim_eq_self (head_trim t) (getLast_trim t)

theorem exists_trim_between {t u : Text} (present : trim t ≠ []) (present' : trim u ≠ []) (between : Text) :
    ∃ w v, AllBlank w ∧ AllBlank v ∧
      trim (t ++ between ++ u) = (trim t ++ w) ++ between ++ (v ++ trim u) := by
  obtain ⟨w, w', before, behind, whole⟩ := exists_eq_trim t
  obtain ⟨v, v', before', behind', whole'⟩ := exists_eq_trim u
  refine ⟨w', v, behind, before', ?_⟩
  have around : t ++ between ++ u = w ++ ((trim t ++ w') ++ between ++ (v ++ trim u)) ++ v' := by
    conv_lhs => rw [whole, whole']
    simp only [List.append_assoc]
  rw [around, trim_append_right behind', trim_append_left before]
  apply trim_eq_self
  · rw [List.append_assoc, List.append_assoc, List.head?_append_of_ne_nil _ present]
    exact head_trim t
  · rw [← List.append_assoc, List.getLast?_append_of_ne_nil _ present']
    exact getLast_trim u

theorem trim_append_of_ends {t : Text} (present : t ≠ []) (first : ∀ c ∈ t.head?, isBlank c = false)
    (last : ∀ c ∈ t.getLast?, isBlank c = false) (u : Text) : trim (t ++ u) = t ++ trimRight isBlank u := by
  have front : (t ++ u).dropWhile isBlank = t ++ u := by
    obtain ⟨c, rest, rfl⟩ := List.exists_cons_of_ne_nil present
    rw [List.cons_append, List.dropWhile_cons_of_neg (by simp [first c rfl])]
  have back : t.reverse.dropWhile isBlank = t.reverse := by
    obtain ⟨rest, c, rfl⟩ := List.eq_nil_or_concat' t |>.resolve_left present
    rw [List.reverse_append, List.reverse_singleton, List.singleton_append,
      List.dropWhile_cons_of_neg (by simp [last c (by simp)])]
  rw [trim, trimBoth, front, trimRight, List.reverse_append, List.dropWhile_append]
  split
  next empty =>
    rw [back, List.reverse_reverse, trimRight, List.isEmpty_iff.1 empty]
    simp
  next => rw [List.reverse_append, List.reverse_reverse, trimRight]

theorem trim_append_cons {c : CodePoint} (visible : isBlank c = false) (blank : AllBlank w) (t : Text) :
    trim (t ++ c :: w) = t.dropWhile isBlank ++ [c] := by
  have start : (t ++ [c]).dropWhile isBlank = t.dropWhile isBlank ++ [c] := by
    rw [List.dropWhile_append]
    split
    next empty => simp [List.isEmpty_iff.1 empty, visible]
    next => rfl
  have front : t ++ c :: w = (t ++ [c]) ++ w := by simp
  rw [front, trim_append_right blank, trim, trimBoth, start, trimRight, List.reverse_append]
  simp [visible]

theorem mem_of_mem_splitOnP {separates : CodePoint → Bool} {t part : Text}
    (member : part ∈ t.splitOnP separates) : ∀ c ∈ part, c ∈ t ∧ separates c = false := by
  induction t generalizing part with
  | nil =>
    rw [List.splitOnP_nil, List.mem_singleton] at member
    simp [member]
  | cons first rest ih =>
    have later {part : Text} (member : part ∈ rest.splitOnP separates) (c : CodePoint) (inside : c ∈ part) :
        c ∈ first :: rest ∧ separates c = false := by
      obtain ⟨listed, other⟩ := ih member c inside
      exact ⟨List.mem_cons_of_mem first listed, other⟩
    rw [List.splitOnP_cons_eq_if_modifyHead] at member
    split at member
    · rcases List.mem_cons.1 member with rfl | behind
      · simp
      · exact later behind
    next other =>
      cases parts : rest.splitOnP separates with
      | nil => simp [parts] at member
      | cons head others =>
        rw [parts] at later member
        rcases List.mem_cons.1 member with rfl | behind
        · refine List.forall_mem_cons.2 ⟨⟨by simp, by simpa using other⟩, ?_⟩
          exact fun c inside => later (List.mem_cons_self ..) c inside
        · exact fun c inside => later (List.mem_cons_of_mem _ behind) c inside

theorem cut_trim {c : CodePoint} (present : isBlank c = false) (t : Text) :
    (cut c (trim t)).2.map trim = (cut c t).2.map trim := by
  obtain ⟨w, w', before, after, whole⟩ := exists_eq_trim t
  generalize trim t = u at whole
  subst whole
  have here := not_mem_of_allBlank before present
  by_cases inside : c ∈ u
  · obtain ⟨first, rest, rfl, absent⟩ := List.eq_append_cons_of_mem inside
    have absent' : c ∉ w ++ first := by simp [here, absent]
    have split : w ++ (first ++ c :: rest) ++ w' = (w ++ first) ++ c :: (rest ++ w') := by simp
    rw [split, cut_append rest absent, cut_append _ absent']
    exact congrArg some (trim_append_right after rest).symm
  · have outside : c ∉ w ++ u ++ w' := by simp [here, inside, not_mem_of_allBlank after present]
    rw [cut_eq_none_iff.2 inside, cut_eq_none_iff.2 outside]

end Text

namespace Phrase

open Text

variable {p q : Text}

theorem name_trim (p : Text) : name (trim p) = name p := by
  obtain ⟨w, w', before, after, whole⟩ := exists_eq_trim p
  generalize trim p = u at whole
  subst whole
  have blank (c : CodePoint) (white : isBlank c = true) : decide (c ≠ '(') = true := by
    refine decide_eq_true fun same => ?_
    rw [same] at white
    exact absurd white (by decide)
  unfold name
  rw [List.append_assoc, List.takeWhile_append_of_pos fun c member => blank c (before c member),
    trim_append_left before, List.takeWhile_append]
  split
  next whole =>
    rw [List.takeWhile_eq_self_iff.2 fun c member => blank c (after c member), trim_append_right after,
      (List.takeWhile_prefix _).eq_of_length whole]
  next => rfl

theorem argumentText?_eq (p : Text) : argumentText? p = ((cut '(' p).2.map trim).bind fun rest =>
    if rest.getLast? = some ')' then some rest.dropLast else none := by
  unfold argumentText?
  cases (cut '(' p).2 <;> rfl

theorem substitute_trim (p body : Text) : substitute (trim p) body = substitute p body := by
  unfold substitute
  rw [argumentText?_eq, argumentText?_eq, cut_trim (by decide) p, readCall?, readCall?, trim_trim]

variable {sequences : Table Text} {phrases others : List Text}

theorem isCall_trim (p : Text) : isCall sequences (trim p) = isCall sequences p := by
  rw [isCall, isCall, name_trim]

theorem expand_trim (p : Text) :
    (expand sequences (trim p)).map trim = (expand sequences p).map trim := by
  unfold expand
  rw [name_trim]
  split
  · simp [trim_trim]
  · rw [substitute_trim]

theorem flatMap_expand_trim (same : phrases.map trim = others.map trim) :
    (phrases.flatMap (expand sequences)).map trim = (others.flatMap (expand sequences)).map trim := by
  have each (phrases : List Text) : (phrases.flatMap (expand sequences)).map trim =
      (phrases.map trim).flatMap fun p => (expand sequences p).map trim := by
    rw [List.map_flatMap, List.flatMap_map]
    simp only [expand_trim]
  rw [each, each, same]

theorem flatMap_expand_of_plain (plain : ∀ p ∈ phrases, isCall sequences p = false) :
    phrases.flatMap (expand sequences) = phrases := by
  have each : ∀ p ∈ phrases, expand sequences p = [p] := by
    intro p member
    have absent : sequences.find? (name p) = none := by
      simpa [isCall, Table.contains] using plain p member
    rw [expand, absent]
  rw [List.flatMap_congr each, List.flatMap_singleton']

theorem expandPasses_succ (depth : Nat) (phrases : List Text) :
    expandPasses sequences (depth + 1) phrases =
      expandPasses sequences depth (phrases.flatMap (expand sequences)) := by
  rw [expandPasses]
  split
  next => rfl
  next idle =>
    rw [flatMap_expand_of_plain (by simpa using idle)]
    cases depth with
    | zero => rfl
    | succ depth => rw [expandPasses, if_neg idle]

theorem expandPasses_trim (depth : Nat) (same : phrases.map trim = others.map trim) :
    (expandPasses sequences depth phrases).map trim = (expandPasses sequences depth others).map trim := by
  induction depth generalizing phrases others with
  | zero => exact same
  | succ depth ih =>
    rw [expandPasses_succ, expandPasses_succ]
    exact ih (flatMap_expand_trim same)

def silenced (sequences : Table Text) (p : Text) : Text := if isCall sequences p then silence else p

theorem expandSequences_eq (sequences : Table Text) (depth : Nat) (line : Int) (phrases : List Text) :
    (expandSequences sequences depth line phrases).1 =
      (expandPasses sequences depth phrases).map (silenced sequences) := by
  unfold expandSequences
  dsimp only
  split
  next none =>
    have each : ∀ p ∈ expandPasses sequences depth phrases, silenced sequences p = p := by
      intro p member
      have plain := List.find?_eq_none.1 none p member
      rw [silenced, if_neg plain]
    rw [List.map_congr_left each, List.map_id']
  next => rfl

theorem expandSequences_trim (depth : Nat) (line line' : Int) (same : phrases.map trim = others.map trim) :
    (expandSequences sequences depth line phrases).1.map trim =
      (expandSequences sequences depth line' others).1.map trim := by
  have each (phrases : List Text) : (phrases.map (silenced sequences)).map trim =
      (phrases.map trim).map fun p => trim (silenced sequences p) := by
    rw [List.map_map, List.map_map]
    refine List.map_congr_left fun p _ => ?_
    simp only [Function.comp_apply, silenced, isCall_trim]
    split
    · rfl
    · rw [trim_trim]
  rw [expandSequences_eq, expandSequences_eq, each, each, expandPasses_trim depth same]

theorem cycle_map (count : Nat) (phrases : List Text) (view : Text → Text) :
    cycle count (phrases.map view) = (cycle count phrases).map view := by
  simp [cycle, List.map_filterMap]

theorem repeatFrom_trim (count line line' : Int) {done done' : List Text}
    (begun : done.map trim = done'.map trim) (same : phrases.map trim = others.map trim) :
    (repeatFrom count line done phrases).1.map trim =
      (repeatFrom count line' done' others).1.map trim := by
  induction phrases generalizing done done' others with
  | nil =>
    obtain rfl : others = [] := List.map_eq_nil_iff.1 same.symm
    exact begun
  | cons p rest ih =>
    obtain ⟨q, rest', rfl, here, later⟩ := List.map_eq_cons_iff.1 same.symm
    have length : rest'.length = rest.length := by simpa using congrArg List.length later
    have length' : done.length = done'.length := by simpa using congrArg List.length begun
    have called : name p = name q := by rw [← name_trim p, ← here, name_trim]
    have empty : done = [] ↔ done' = [] := by
      rw [← List.length_eq_zero_iff, length', List.length_eq_zero_iff]
    rw [repeatFrom, repeatFrom]
    simp only [called, length, length', empty]
    split_ifs
    · refine ih ?_ later.symm
      have last : trim (done.getLast?.getD silence) = trim (done'.getLast?.getD silence) := by
        have lasts := congrArg List.getLast? begun
        rw [List.getLast?_map, List.getLast?_map] at lasts
        cases found : done.getLast? <;> cases found' : done'.getLast? <;> simp_all
      simp only [List.map_append, begun, List.map_singleton, last]
    · exact ih rfl later.symm
    · refine ih ?_ later.symm
      rw [List.map_append, List.map_append, ← cycle_map, ← cycle_map, begun]
    · refine ih ?_ later.symm
      simp only [List.map_append, begun, List.map_singleton, here]

end Phrase

end ScoreScript
