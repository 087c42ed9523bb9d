import ScoreScript.Proofs.Numerals

set_option autoImplicit false

/-!
# Arguments put into bodies

A body is made of characters and of places for arguments. The arguments of a call are put in place after
place. If the word that all places begin with stands nowhere else, and none of its letters is in an argument,
that is the same as filling all places at once, in whatever order it is done.
-/

namespace ScoreScript

namespace Text

variable {word t : Text} {c : CodePoint}

theorem digits_inj {i j : Nat} (same : digits 10 i = digits 10 j) : i = j := by
  have letters : Nat.toDigits 10 i = Nat.toDigits 10 j :=
    List.map_injective_iff.2 (fun _ _ => CodePoint.char.inj) same
  rw [← Nat.ofDigitChars_toDigits (n := i) (by decide : 1 < 10) (by decide), letters,
    Nat.ofDigitChars_toDigits (by decide) (by decide)]

/-! ### Replaced words -/

theorem splitOnWord_ne_nil (word t : Text) : splitOnWord word t ≠ [] := by
  fun_induction splitOnWord word t with
  | case1 => simp
  | case2 => simp
  | case3 c rest _ ih => simpa using ih

theorem replaceAll_nil (word new : Text) : replaceAll word new [] = [] := by
  simp [replaceAll, splitOnWord]

theorem replaceAll_append (present : word ≠ []) (new t : Text) :
    replaceAll word new (word ++ t) = new ++ replaceAll word new t := by
  have cuts : splitOnWord word (word ++ t) = [] :: splitOnWord word t := by
    rw [splitOnWord, dif_pos ⟨present, by simp, by simp [present]⟩, List.drop_left]
  obtain ⟨first, rest, parts⟩ := List.exists_cons_of_ne_nil (splitOnWord_ne_nil word t)
  rw [replaceAll, replaceAll, cuts, parts, List.intercalate_cons_cons, List.nil_append]

theorem replaceAll_cons (other : ¬word <+: c :: t) (new : Text) :
    replaceAll word new (c :: t) = c :: replaceAll word new t := by
  have cuts : splitOnWord word (c :: t) = (splitOnWord word t).modifyHead (c :: ·) := by
    rw [splitOnWord, dif_neg]
    simp [List.isPrefixOf_iff_prefix, other]
  obtain ⟨first, rest, parts⟩ := List.exists_cons_of_ne_nil (splitOnWord_ne_nil word t)
  rw [replaceAll, replaceAll, cuts, parts, List.modifyHead_cons]
  cases rest with
  | nil => simp
  | cons => rw [List.intercalate_cons_cons, List.intercalate_cons_cons]; rfl

theorem replaceAll_append_of_notMem {u : Text} (absent : c ∉ u) (word new t : Text) :
    replaceAll (c :: word) new (u ++ t) = u ++ replaceAll (c :: word) new t := by
  induction u with
  | nil => rfl
  | cons d rest ih =>
    obtain ⟨differs, later⟩ := not_or.1 (mt List.mem_cons.2 absent)
    have other : ¬c :: word <+: d :: (rest ++ t) := fun begins => differs (List.cons_prefix_cons.1 begins).1
    rw [List.cons_append, replaceAll_cons other, ih later, List.cons_append]

/-! ### Calls -/

def argumentsOf (t : Text) : List Text :=
  (t.splitOnP fun c => isBlank c || c = .char ',').filter (· ≠ [])

theorem blankSeparated_of_commas (t : Text) :
    blankSeparated (t.map fun c => if c = .char ',' then .char ' ' else c) = argumentsOf t := by
  have parts : (t.map fun c => if c = .char ',' then .char ' ' else c).splitOnP isBlank =
      t.splitOnP fun c => isBlank c || c = .char ',' := by
    induction t with
    | nil => rfl
    | cons c rest ih =>
      rw [List.map_cons, List.splitOnP_cons_eq_if_modifyHead, List.splitOnP_cons_eq_if_modifyHead, ih]
      have blank : isBlank (.char ' ') = true := by decide
      by_cases comma : c = .char ',' <;> simp [comma, blank]
  rw [blankSeparated, parts, argumentsOf]

theorem mem_of_mem_argumentsOf {argument : Text} (member : argument ∈ argumentsOf t) :
    argument ≠ [] ∧ ∀ c ∈ argument, c ∈ t ∧ isBlank c = false := by
  obtain ⟨piece, present⟩ := List.mem_filter.1 member
  refine ⟨by simpa using present, fun c inside => ?_⟩
  obtain ⟨listed, other⟩ := mem_of_mem_splitOnP piece c inside
  simp only [Bool.or_eq_false_iff] at other
  exact ⟨listed, other.1⟩

variable {head inner tail : Text}

theorem readCall?_call (single : .char '(' ∉ head) (flat : .char '(' ∉ inner ∧ .char ')' ∉ inner)
    (blank : AllBlank tail) : readCall? (head ++ .char '(' :: inner ++ .char ')' :: tail) =
      some (trim head, argumentsOf inner) := by
  have closes : isBlank (.char ')') = false := by decide
  have opens : isBlank (.char '(') = false := by decide
  have start : (head ++ .char '(' :: inner).dropWhile isBlank =
      head.dropWhile isBlank ++ .char '(' :: inner := by
    rw [List.dropWhile_append]
    split
    next none => simp [List.isEmpty_iff.1 none, opens]
    next => rfl
  have single' : .char '(' ∉ head.dropWhile isBlank :=
    fun member => single ((List.dropWhile_suffix _).subset member)
  have unnested : CodePoint.char '(' ∉ inner ++ [.char ')'] := by simp [flat.1]
  have name : trim (head.dropWhile isBlank) = trim head := by
    have front : AllBlank (head.takeWhile isBlank) := fun c member => List.mem_takeWhile_imp member
    rw [← trim_append_left front, List.takeWhile_append_dropWhile]
  rw [readCall?, trim_append_cons closes blank, start, List.append_assoc, List.cons_append,
    cut_append _ single']
  simp [unnested, cut_append _ flat.2, blankSeparated_of_commas, name]

end Text

namespace Phrase

open Text

/-! ### Bodies -/

inductive Place where
  | argument (index : Nat)
  | all
deriving DecidableEq

def stem : Text := "arg"

namespace Place

def word : Place → Text
  | argument index => placeholder index
  | all => "args"

theorem word_argument (index : Nat) :
    word (argument index) = stem ++ .char '(' :: (digits 10 index ++ [.char ')']) := rfl

theorem word_all : word all = stem ++ [.char 's'] := rfl

theorem stem_prefix_word (p : Place) : stem <+: p.word := by
  cases p with
  | argument index => exact List.prefix_append _ _
  | all => exact List.prefix_append _ _

theorem exists_word_eq (p : Place) : ∃ rest, p.word = .char 'a' :: rest ∧ .char 'a' ∉ rest := by
  cases p with
  | argument index =>
    have figures : .char 'a' ∉ digits 10 index := by
      intro member
      obtain ⟨value, figure⟩ := isFigure_of_mem_digits member
      have unread : digitValue? (.char 'a') = none := by decide
      rw [figure.read] at unread
      cases unread
    refine ⟨[.char 'r', .char 'g', .char '('] ++ (digits 10 index ++ [.char ')']), rfl, ?_⟩
    simp [figures]
  | all => exact ⟨[.char 'r', .char 'g', .char 's'], rfl, by decide⟩

theorem word_ne_nil (p : Place) : p.word ≠ [] := by
  obtain ⟨rest, begins, -⟩ := p.exists_word_eq
  simp [begins]

theorem eq_of_prefix {p q : Place} {t : Text} (begins : p.word <+: q.word ++ t) : p = q := by
  cases p with
  | argument i =>
    cases q with
    | argument j =>
      obtain ⟨more, same⟩ := begins
      simp only [word_argument, List.append_assoc, List.cons_append, List.nil_append,
        List.append_cancel_left_eq, List.cons.injEq, true_and] at same
      have closed (n : Nat) : .char ')' ∉ digits 10 n := (isUncut_digits n).notMem (by decide)
      have numbers := congrArg (cut (.char ')')) same
      rw [cut_append _ (closed i), cut_append _ (closed j)] at numbers
      rw [digits_inj (congrArg Prod.fst numbers)]
    | all =>
      obtain ⟨more, same⟩ := begins
      simp [word_argument, word_all] at same
  | all =>
    cases q with
    | argument j =>
      obtain ⟨more, same⟩ := begins
      simp [word_argument, word_all] at same
    | all => rfl

end Place

inductive Piece where
  | plain (c : CodePoint)
  | place (p : Place)
deriving DecidableEq

def fill (values : Place → Option Text) (pieces : List Piece) : Text :=
  pieces.flatMap fun
    | .plain c => [c]
    | .place p => (values p).getD p.word

inductive Reads : Text → List Piece → Prop where
  | nil : Reads [] []
  | plain {c : CodePoint} {t : Text} {pieces : List Piece} (other : ¬stem <+: c :: t)
    (rest : Reads t pieces) : Reads (c :: t) (.plain c :: pieces)
  | place {t : Text} {pieces : List Piece} (p : Place) (rest : Reads t pieces) :
    Reads (p.word ++ t) (.place p :: pieces)

/-- Whether places are all that begin like one in a body. -/
def OnlyPlaces (body : Text) : Prop :=
  ∀ front rest, body = front ++ stem ++ rest → ∃ p : Place, p.word <+: stem ++ rest

variable {t : Text} {pieces others : List Piece} {values : Place → Option Text}

theorem Reads.fill_none (reads : Reads t pieces) : fill (fun _ => none) pieces = t := by
  induction reads with
  | nil => rfl
  | plain other rest ih => exact congrArg (_ :: ·) ih
  | place p rest ih => exact congrArg (p.word ++ ·) ih

theorem Reads.unique (reads : Reads t pieces) (reads' : Reads t others) : pieces = others := by
  induction reads generalizing others with
  | nil =>
    generalize empty : ([] : Text) = body at reads'
    cases reads' with
    | nil => rfl
    | plain => cases empty
    | place p => exact absurd (List.append_eq_nil_iff.1 empty.symm).1 p.word_ne_nil
  | @plain c t pieces other rest ih =>
    generalize same : c :: t = body at reads'
    cases reads' with
    | nil => cases same
    | plain other' rest' =>
      cases same
      rw [ih rest']
    | place p => exact absurd (p.stem_prefix_word.trans ⟨_, same.symm⟩) other
  | @place t pieces p rest ih =>
    generalize same : p.word ++ t = body at reads'
    cases reads' with
    | nil => exact absurd (List.append_eq_nil_iff.1 same).1 p.word_ne_nil
    | plain other' => exact absurd (p.stem_prefix_word.trans ⟨_, same⟩) other'
    | place q rest' =>
      obtain rfl := Place.eq_of_prefix ⟨t, same⟩
      cases List.append_cancel_left same
      rw [ih rest']

theorem OnlyPlaces.of_append {u : Text} (only : OnlyPlaces (u ++ t)) : OnlyPlaces t :=
  fun front rest split => only (u ++ front) rest (by simp [split])

theorem OnlyPlaces.exists_reads (only : OnlyPlaces t) : ∃ pieces, Reads t pieces := by
  induction size : t.length using Nat.strong_induction_on generalizing t with
  | _ n ih =>
    cases t with
    | nil => exact ⟨[], .nil⟩
    | cons c rest =>
      by_cases begins : stem <+: c :: rest
      · obtain ⟨behind, split⟩ := begins
        obtain ⟨p, more, word⟩ := only [] behind split.symm
        rw [← split, ← word] at only ⊢
        have shorter : more.length < n := by
          have := List.length_pos_iff.2 p.word_ne_nil
          rw [← size, ← split, ← word, List.length_append]
          omega
        obtain ⟨pieces, reads⟩ := ih _ shorter only.of_append rfl
        exact ⟨_, .place p reads⟩
      · obtain ⟨pieces, reads⟩ := ih _ (by simp [← size]) (OnlyPlaces.of_append (u := [c]) only) rfl
        exact ⟨_, .plain begins reads⟩

theorem Reads.onlyPlaces (reads : Reads t pieces) : OnlyPlaces t := by
  induction reads with
  | nil =>
    intro front rest split
    obtain ⟨empty, -⟩ := List.append_eq_nil_iff.1 split.symm
    exact absurd (List.append_eq_nil_iff.1 empty).2 (by decide)
  | @plain c t pieces other _ ih =>
    intro front rest split
    cases front with
    | nil => exact absurd ⟨rest, split.symm⟩ other
    | cons d front =>
      cases split
      exact ih front rest rfl
  | @place t pieces p _ ih =>
    intro front rest split
    rw [List.append_assoc] at split
    rcases List.append_eq_append_iff.1 split with ⟨between, rfl, later⟩ | ⟨between, word, later⟩
    · exact ih between rest (by rw [later, List.append_assoc])
    · cases between with
      | nil => exact ih [] rest later.symm
      | cons c between =>
        -- the word of the place would hold a second letter like its first one
        obtain ⟨tail, begins, once⟩ := p.exists_word_eq
        obtain rfl : CodePoint.char 'a' = c := (List.cons.inj later).1
        cases front with
        | nil => exact ⟨p, t, split⟩
        | cons d front =>
          rw [begins] at word
          cases word
          exact absurd (by simp) once

theorem onlyPlaces_iff : OnlyPlaces t ↔ ∃ pieces, Reads t pieces :=
  ⟨OnlyPlaces.exists_reads, fun ⟨_, reads⟩ => reads.onlyPlaces⟩

/-! ### Places that are filled -/

structure IsForeign (v : Text) : Prop where
  present : v ≠ []
  foreign : ∀ c ∈ v, c ∉ stem

theorem prefix_of_prefix_fill (foreign : ∀ p v, values p = some v → IsForeign v) (reads : Reads t pieces)
    {letters : Text} (inner : ∀ c ∈ letters, c ∈ stem.tail) (begins : letters <+: fill values pieces) :
    letters <+: t := by
  induction letters generalizing t pieces with
  | nil => exact List.nil_prefix
  | cons d rest ih =>
    obtain ⟨here, later⟩ := List.forall_mem_cons.1 inner
    cases reads with
    | nil => exact begins
    | plain other reads =>
      obtain ⟨rfl, behind⟩ := List.cons_prefix_cons.1 begins
      exact List.cons_prefix_cons.2 ⟨rfl, ih reads later behind⟩
    | place p reads =>
      -- a value begins with a foreign letter, and an empty place with the first letter of the stem
      obtain ⟨more, same⟩ := begins
      have same : d :: (rest ++ more) = (values p).getD p.word ++ fill values _ := same
      cases value : values p with
      | none =>
        obtain ⟨tail, word, -⟩ := p.exists_word_eq
        rw [value, Option.getD_none, word] at same
        obtain rfl := (List.cons.inj same).1
        exact absurd here (by decide)
      | some v =>
        obtain ⟨c, tail, rfl⟩ := List.exists_cons_of_ne_nil (foreign p v value).present
        rw [value] at same
        obtain rfl := (List.cons.inj same).1
        exact absurd (List.mem_of_mem_tail here) ((foreign p _ value).foreign d (by simp))

theorem replaceAll_fill (foreign : ∀ p v, values p = some v → IsForeign v) (reads : Reads t pieces)
    {p : Place} (empty : values p = none) (v : Text) :
    replaceAll p.word v (fill values pieces) = fill (Function.update values p (some v)) pieces := by
  obtain ⟨tail, word, once⟩ := p.exists_word_eq
  induction reads with
  | nil => exact replaceAll_nil p.word v
  | @plain c t pieces other rest ih =>
    have absent : ¬p.word <+: c :: fill values pieces := by
      intro begins
      obtain ⟨rfl, behind⟩ := List.cons_prefix_cons.1 (p.stem_prefix_word.trans begins)
      have stemBehind : stem.tail <+: t := prefix_of_prefix_fill foreign rest (fun _ member => member) behind
      exact other (List.cons_prefix_cons.2 ⟨rfl, stemBehind⟩)
    exact (replaceAll_cons absent v).trans (congrArg (c :: ·) ih)
  | @place t pieces q rest ih =>
    -- another place shows its value or its word; neither holds the word that is replaced
    have next (u : Text) (passed : replaceAll p.word v (u ++ fill values pieces) =
        u ++ replaceAll p.word v (fill values pieces)) (same : (values q).getD q.word = u)
        (differs : q ≠ p) : replaceAll p.word v (fill values (.place q :: pieces)) =
          fill (Function.update values p (some v)) (.place q :: pieces) := by
      change replaceAll p.word v ((values q).getD q.word ++ fill values pieces) =
        ((Function.update values p (some v)) q).getD q.word ++ fill _ pieces
      rw [Function.update_of_ne differs, same, passed, ih]
    by_cases same : q = p
    · subst same
      change replaceAll q.word v ((values q).getD q.word ++ fill values pieces) =
        ((Function.update values q (some v)) q).getD q.word ++ fill _ pieces
      rw [empty, Option.getD_none, replaceAll_append q.word_ne_nil, ih, Function.update_self]
      rfl
    · cases value : values q with
      | some w =>
        have passed : CodePoint.char 'a' ∉ w := fun member =>
          (foreign q w value).foreign _ member (by decide)
        refine next w ?_ (by rw [value]; rfl) same
        rw [word]
        exact replaceAll_append_of_notMem passed tail v _
      | none =>
        obtain ⟨letters, word', once'⟩ := q.exists_word_eq
        refine next q.word ?_ (by rw [value]; rfl) same
        have other : ¬p.word <+: q.word ++ fill values pieces :=
          fun begins => same (Place.eq_of_prefix begins).symm
        rw [word', List.cons_append] at other ⊢
        rw [replaceAll_cons other, word, replaceAll_append_of_notMem once', List.cons_append]

def replaceInTurn (order : List (Place × Text)) (body : Text) : Text :=
  order.foldl (fun body r => replaceAll r.1.word r.2 body) body

theorem replaceInTurn_fill {order : List (Place × Text)} {filled : Place → Option Text}
    (distinct : (order.map Prod.fst).Nodup) (foreign : ∀ r ∈ order, IsForeign r.2)
    (foreign' : ∀ p v, values p = some v → IsForeign v) (empty : ∀ r ∈ order, values r.1 = none)
    (whole : ∀ p v, filled p = some v ↔ values p = some v ∨ (p, v) ∈ order) (reads : Reads t pieces) :
    replaceInTurn order (fill values pieces) = fill filled pieces := by
  induction order generalizing values with
  | nil =>
    have same : filled = values := by
      funext p
      ext v
      simp [whole]
    rw [same]
    rfl
  | cons r rest ih =>
    obtain ⟨p, new⟩ := r
    obtain ⟨fresh, distinct⟩ := List.nodup_cons.1 distinct
    obtain ⟨here, later⟩ := List.forall_mem_cons.1 foreign
    obtain ⟨open', empty⟩ := List.forall_mem_cons.1 empty
    have apart : ∀ r ∈ rest, r.1 ≠ p := fun r member same => fresh (List.mem_map.2 ⟨r, member, same⟩)
    have updated (q : Place) (v : Text) : Function.update values p (some new) q = some v ↔
        values q = some v ∨ (q, v) = (p, new) := by
      by_cases same : q = p
      · subst same
        simp [open', eq_comm]
      · simp [same]
    have step : replaceInTurn ((p, new) :: rest) (fill values pieces) =
        replaceInTurn rest (fill (Function.update values p (some new)) pieces) := by
      rw [← replaceAll_fill foreign' reads open' new]
      rfl
    rw [step]
    refine ih distinct later ?_ (fun r member => ?_) fun q v => ?_
    · intro q v filled
      rcases (updated q v).1 filled with before | same
      · exact foreign' q v before
      · cases same
        exact here
    · rw [Function.update_of_ne (apart r member)]
      exact empty r member
    · rw [whole, updated, List.mem_cons, or_assoc]

/-! ### Calls -/

def valuesOf (arguments : List Text) (all : Text) : Place → Option Text
  | .argument index => arguments[index]?
  | .all => some all

def replacements (arguments : List Text) (all : Text) : List (Place × Text) :=
  arguments.mapIdx (fun index argument => (.argument index, argument)) ++ [(.all, all)]

theorem mem_replacements {arguments : List Text} {all v : Text} {p : Place} :
    (p, v) ∈ replacements arguments all ↔ valuesOf arguments all p = some v := by
  cases p with
  | argument index =>
    simp [replacements, valuesOf, List.mem_mapIdx, List.getElem?_eq_some_iff]
  | all => simp [replacements, valuesOf, List.mem_mapIdx, eq_comm]

theorem nodup_replacements (arguments : List Text) (all : Text) :
    ((replacements arguments all).map Prod.fst).Nodup := by
  have places : (replacements arguments all).map Prod.fst =
      (List.range arguments.length).map Place.argument ++ [Place.all] := by
    rw [replacements, List.map_append]
    exact congrArg (· ++ _) (List.ext_getElem (by simp) (by simp))
  have numbered : ((List.range arguments.length).map Place.argument).Nodup :=
    List.nodup_range.map fun _ _ => Place.argument.inj
  rw [places, List.nodup_append]
  exact ⟨numbered, List.nodup_singleton _, by simp⟩

theorem substituteFrom_eq (index : Nat) (arguments : List Text) (body : Text) :
    substituteFrom index arguments body =
      replaceInTurn (arguments.mapIdx fun i argument => (.argument (index + i), argument)) body := by
  induction arguments generalizing index body with
  | nil => rfl
  | cons argument rest ih =>
    rw [substituteFrom, ih, List.mapIdx_cons]
    have next : (rest.mapIdx fun i argument => (Place.argument (index + 1 + i), argument)) =
        rest.mapIdx fun i argument => (Place.argument (index + (i + 1)), argument) := by
      simp only [Nat.add_assoc, Nat.add_comm 1]
    rw [next]
    rfl

variable {head inner tail body : Text}

theorem substitute_call (single : .char '(' ∉ head) (flat : .char '(' ∉ inner ∧ .char ')' ∉ inner)
    (blank : AllBlank tail) (body : Text) :
    substitute (head ++ .char '(' :: inner ++ .char ')' :: tail) body =
      replaceInTurn (replacements (argumentsOf inner) (inner.dropWhile isBlank)) body := by
  have closes : isBlank (.char ')') = false := by decide
  have phrase : head ++ .char '(' :: inner ++ .char ')' :: tail =
      head ++ .char '(' :: (inner ++ .char ')' :: tail) := by simp
  have text : argumentText? (head ++ .char '(' :: inner ++ .char ')' :: tail) =
      some (inner.dropWhile isBlank) := by
    rw [argumentText?_eq, phrase, cut_append _ single]
    simp [trim_append_cons closes blank]
  rw [substitute, text, readCall?_call single flat blank, Option.map_some, Option.getD_some, substituteFrom_eq,
    replaceInTurn, replaceInTurn, replacements, List.foldl_append]
  simp only [Nat.zero_add]
  rfl

theorem isForeign_of_mem_replacements (foreign : ∀ c ∈ inner, c ∉ stem) (some : argumentsOf inner ≠ [])
    {r : Place × Text} (member : r ∈ replacements (argumentsOf inner) (inner.dropWhile isBlank)) :
    IsForeign r.2 := by
  obtain ⟨p, v⟩ := r
  rw [mem_replacements] at member
  cases p with
  | argument index =>
    obtain ⟨present, letters⟩ := mem_of_mem_argumentsOf (List.mem_of_getElem? member)
    exact ⟨present, fun c inside => foreign c (letters c inside).1⟩
  | all =>
    cases member
    constructor
    · obtain ⟨argument, listed⟩ := List.exists_mem_of_ne_nil _ some
      obtain ⟨present, letters⟩ := mem_of_mem_argumentsOf listed
      obtain ⟨c, inside⟩ := List.exists_mem_of_ne_nil _ present
      obtain ⟨here, visible⟩ := letters c inside
      intro none
      rw [List.dropWhile_eq_nil_iff.1 none c here] at visible
      cases visible
    · exact fun c inside => foreign c ((List.dropWhile_suffix _).subset inside)

theorem replaceInTurn_of_perm (foreign : ∀ c ∈ inner, c ∉ stem) (reads : Reads body pieces)
    {order : List (Place × Text)}
    (permuted : order.Perm (replacements (argumentsOf inner) (inner.dropWhile isBlank))) :
    replaceInTurn order body = fill (valuesOf (argumentsOf inner) (inner.dropWhile isBlank)) pieces := by
  have unfilled : ∀ p v, (fun _ => none : Place → Option Text) p = some v → IsForeign v :=
    fun _ _ filled => nomatch filled
  rw [← reads.fill_none]
  by_cases alone : argumentsOf inner = []
  · -- the text between the parentheses may be empty here, but nothing else is replaced
    rw [alone] at permuted ⊢
    have last : Function.update (fun _ => none) Place.all (some (inner.dropWhile isBlank)) =
        valuesOf [] (inner.dropWhile isBlank) := by
      funext p
      cases p <;> rfl
    rw [List.perm_singleton.1 permuted, ← last]
    exact replaceAll_fill unfilled reads rfl _
  · refine replaceInTurn_fill ?_ (fun r member => ?_) unfilled (fun _ _ => rfl) (fun p v => ?_) reads
    · exact (permuted.map _).nodup_iff.2 (nodup_replacements _ _)
    · exact isForeign_of_mem_replacements foreign alone (permuted.mem_iff.1 member)
    · rw [permuted.mem_iff, mem_replacements]
      simp

/-- A call with a single pair of parentheses fills the places of a body all at once: the place of an argument
with the argument, if there is one, and the place of all arguments with the text between the parentheses but
for the blanks in front. The order does not matter, and all else stays. -/
theorem arguments_put_in_at_once (single : .char '(' ∉ head)
    (flat : .char '(' ∉ inner ∧ .char ')' ∉ inner) (blank : AllBlank tail)
    (foreign : ∀ c ∈ inner, c ∉ stem) (only : OnlyPlaces body) :
    ∃ pieces, (∀ others, Reads body others ↔ others = pieces) ∧
      substitute (head ++ .char '(' :: inner ++ .char ')' :: tail) body =
        fill (valuesOf (argumentsOf inner) (inner.dropWhile isBlank)) pieces ∧
      ∀ order, order.Perm (replacements (argumentsOf inner) (inner.dropWhile isBlank)) →
        replaceInTurn order body =
          fill (valuesOf (argumentsOf inner) (inner.dropWhile isBlank)) pieces := by
  obtain ⟨pieces, reads⟩ := onlyPlaces_iff.1 only
  have inTurn (order : List (Place × Text))
      (permuted : order.Perm (replacements (argumentsOf inner) (inner.dropWhile isBlank))) :=
    replaceInTurn_of_perm foreign reads permuted
  refine ⟨pieces, fun others => ?_, ?_, inTurn⟩
  · exact ⟨fun reads' => reads'.unique reads, fun same => same ▸ reads⟩
  · rw [substitute_call single flat blank]
    exact inTurn _ (.refl _)

def riff : Text := "arg(1)arg(10) args"

theorem reads_riff :
    Reads riff [.place (.argument 1), .place (.argument 10), .plain (.char ' '), .place .all] := by
  have written : riff = Place.word (.argument 1) ++ (Place.word (.argument 10) ++
      .char ' ' :: (Place.word .all ++ [])) := by decide +kernel
  rw [written]
  exact .place _ (.place _ (.plain (by decide) (.place _ .nil)))

theorem arguments_put_in_at_once_of_riff :
    .char '(' ∉ of "riff" ∧ (.char '(' ∉ of " 5, 6" ∧ .char ')' ∉ of " 5, 6") ∧ AllBlank " " ∧
      (∀ c ∈ of " 5, 6", c ∉ stem) ∧ OnlyPlaces riff ∧
      substitute "riff( 5, 6) " riff = of "6arg(10) 5, 6" := by
  have single : CodePoint.char '(' ∉ of "riff" := by decide
  have flat : CodePoint.char '(' ∉ of " 5, 6" ∧ CodePoint.char ')' ∉ of " 5, 6" := by decide
  have blank : AllBlank " " := by simp [AllBlank, of, isBlank, CodePoint.toNat]
  have foreign : ∀ c ∈ of " 5, 6", c ∉ stem := by decide
  have only : OnlyPlaces riff := onlyPlaces_iff.2 ⟨_, reads_riff⟩
  obtain ⟨pieces, read, result, -⟩ := arguments_put_in_at_once single flat blank foreign only
  refine ⟨single, flat, blank, foreign, only, ?_⟩
  rw [← (read _).1 reads_riff] at result
  have phrase : of "riff" ++ .char '(' :: of " 5, 6" ++ .char ')' :: of " " = of "riff( 5, 6) " := by decide
  rw [phrase] at result
  rw [result]
  decide +kernel

end Phrase

end ScoreScript
