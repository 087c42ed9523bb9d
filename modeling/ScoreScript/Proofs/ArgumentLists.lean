import ScoreScript.Proofs.Substitution

set_option autoImplicit false

namespace ScoreScript.Text

def depth (t : Text) : Nat := t.count (.char '(') - t.count (.char ')')

structure IsBalanced (t : Text) : Prop where
  opened : ∀ u, u <+: t → u.count (.char ')') ≤ u.count (.char '(')
  closed : t.count (.char '(') = t.count (.char ')')

/-- Whether a text is an item of a list: it is not blank, its parentheses belong together, and none of its
commas stands outside of them. -/
structure IsItem (t : Text) : Prop extends IsBalanced t where
  present : trim t ≠ []
  enclosed : ∀ u, u ++ [.char ','] <+: t → 0 < depth u

instance (t : Text) : Decidable (IsItem t) :=
  decidable_of_iff ((∀ u ∈ t.inits, u.count (.char ')') ≤ u.count (.char '(')) ∧
      t.count (.char '(') = t.count (.char ')') ∧ trim t ≠ [] ∧
      ∀ u ∈ t.inits, u ++ [.char ','] <+: t → 0 < depth u)
    ⟨fun ⟨opened, closed, present, enclosed⟩ =>
        ⟨⟨fun u start => opened u ((List.mem_inits ..).2 start), closed⟩, present,
          fun u comma => enclosed u ((List.mem_inits ..).2 ((List.prefix_append ..).trans comma)) comma⟩,
      fun item => ⟨fun u member => item.opened u ((List.mem_inits ..).1 member), item.closed, item.present,
        fun u _ => item.enclosed u⟩⟩

variable {t : Text}

theorem depth_concat (opened : t.count (.char ')') ≤ t.count (.char '(')) (c : CodePoint) :
    depth (t ++ [c]) = if c = '(' then depth t + 1 else if c = ')' then depth t - 1 else depth t := by
  simp only [depth, List.count_append, List.count_singleton, beq_iff_eq]
  split_ifs with opens closes
  · simp_all
  · omega
  · omega
  · omega

theorem IsItem.go (item : IsItem t) (behind rest before : Text) (whole : before ++ rest = t) :
    splitOutsideParens.go (.char ',') before (depth before) (rest ++ behind) =
      splitOutsideParens.go (.char ',') t 0 behind := by
  -- what has been read is never closed more often than it is opened, so its depth is a difference of counts
  induction rest generalizing before with
  | nil =>
    have flat : depth t = 0 := Nat.sub_eq_zero_of_le item.closed.le
    rw [List.append_nil] at whole
    rw [whole, flat, List.nil_append]
  | cons c rest ih =>
    have next : (before ++ [c]) ++ rest = t := by rw [← whole, List.append_assoc, List.singleton_append]
    have step := depth_concat (item.opened before ⟨_, whole⟩) c
    have kept : ¬(c = .char ',' ∧ depth (before ++ [c]) = 0) := by
      rintro ⟨rfl, outside⟩
      have inside : 0 < depth before := item.enclosed before ⟨_, next⟩
      rw [step, if_neg (by decide), if_neg (by decide)] at outside
      omega
    rw [List.cons_append, splitOutsideParens.go, ← step, if_neg kept]
    exact ih _ next

theorem splitOutsideParens_intercalate {items : List Text} (areItems : ∀ item ∈ items, IsItem item) :
    splitOutsideParens (.char ',') ([.char ','].intercalate items) = items := by
  have finished {item : Text} (isItem : IsItem item) : splitOutsideParens.finished item = [item] :=
    if_neg isItem.present
  induction items with
  | nil => rfl
  | cons item rest ih =>
    obtain ⟨isItem, areItems⟩ := List.forall_mem_cons.1 areItems
    cases rest with
    | nil =>
      have last := isItem.go [] item [] rfl
      rw [List.append_nil] at last
      rw [List.intercalate_singleton]
      exact last.trans (finished isItem)
    | cons second others =>
      rw [List.intercalate_cons_cons, List.append_assoc]
      refine (isItem.go _ item [] rfl).trans ?_
      rw [List.singleton_append, splitOutsideParens.go, if_pos ⟨rfl, rfl⟩, finished isItem]
      exact congrArg (item :: ·) (ih areItems)

def isSeparator (c : CodePoint) : Bool := isBlank c || c = .char ','

structure IsArgument (t : Text) : Prop extends IsSolid t where
  plain : ∀ c ∈ t, c ∉ of ",()"

instance (t : Text) : Decidable (IsArgument t) :=
  decidable_of_iff ((t ≠ [] ∧ ∀ c ∈ t, isBlank c = false) ∧ ∀ c ∈ t, c ∉ of ",()")
    ⟨fun ⟨⟨present, visible⟩, plain⟩ => ⟨⟨present, visible⟩, plain⟩,
      fun argument => ⟨⟨argument.present, argument.visible⟩, argument.plain⟩⟩

inductive Lists : Text → List Text → Prop
  | nil : Lists [] []
  | one {argument : Text} (isArgument : IsArgument argument) : Lists argument [argument]
  | more {argument gap t next : Text} {rest : List Text} (isArgument : IsArgument argument) (apart : gap ≠ [])
    (separates : ∀ c ∈ gap, isSeparator c = true) (later : Lists t (next :: rest)) :
    Lists (argument ++ (gap ++ t)) (argument :: next :: rest)

variable {argument inner : Text} {arguments : List Text} {c : CodePoint}

theorem argumentsOf_eq (t : Text) : argumentsOf t = (t.splitOnP isSeparator).filter (· ≠ []) := rfl

theorem argumentsOf_append (separates : isSeparator c = true) (t u : Text) :
    argumentsOf (t ++ c :: u) = argumentsOf t ++ argumentsOf u := by
  simp only [argumentsOf_eq, List.splitOnP_append_cons t u separates, List.filter_append]

theorem argumentsOf_argument (isArgument : IsArgument argument) : argumentsOf argument = [argument] := by
  have whole : argument.splitOnP isSeparator = [argument] := by
    refine List.splitOnP_eq_singleton fun c inside => ?_
    have other : c ≠ .char ',' := by
      rintro rfl
      exact isArgument.plain _ inside (by decide)
    simp [isSeparator, isArgument.visible c inside, other]
  rw [argumentsOf_eq, whole]
  simp [isArgument.present]

theorem argumentsOf_gap {gap : Text} (separates : ∀ c ∈ gap, isSeparator c = true) (t : Text) :
    argumentsOf (gap ++ t) = argumentsOf t := by
  induction gap with
  | nil => rfl
  | cons c rest ih =>
    obtain ⟨here, later⟩ := List.forall_mem_cons.1 separates
    exact (argumentsOf_append here [] (rest ++ t)).trans (ih later)

theorem Lists.argumentsOf_eq (lists : Lists inner arguments) : argumentsOf inner = arguments := by
  induction lists with
  | nil => rfl
  | one isArgument => exact argumentsOf_argument isArgument
  | @more argument gap t next rest isArgument apart separates later ih =>
    obtain ⟨c, others, rfl⟩ := List.exists_cons_of_ne_nil apart
    obtain ⟨here, there⟩ := List.forall_mem_cons.1 separates
    rw [List.cons_append, argumentsOf_append here, argumentsOf_argument isArgument, argumentsOf_gap there, ih]
    rfl

theorem Lists.flat (lists : Lists inner arguments) : .char '(' ∉ inner ∧ .char ')' ∉ inner := by
  have plain {argument : Text} (isArgument : IsArgument argument) {c : CodePoint} (listed : c ∈ of ",()") :
      c ∉ argument := fun inside => isArgument.plain c inside listed
  induction lists with
  | nil => simp
  | one isArgument => exact ⟨plain isArgument (by decide), plain isArgument (by decide)⟩
  | @more argument gap t next rest isArgument apart separates later ih =>
    have unseparated {c : CodePoint} (other : isSeparator c = false) : c ∉ gap := fun inside => by
      simp [separates c inside] at other
    simp only [List.mem_append, not_or]
    exact ⟨⟨plain isArgument (by decide), unseparated (by decide), ih.1⟩,
      plain isArgument (by decide), unseparated (by decide), ih.2⟩

theorem readCall?_lists {head : Text} (single : .char '(' ∉ head) (lists : Lists inner arguments) :
    readCall? (head ++ .char '(' :: inner ++ [.char ')']) = some (trim head, arguments) := by
  rw [readCall?_call single lists.flat allBlank_nil, lists.argumentsOf_eq]

theorem eq_of_cut {separator : CodePoint} {first rest : Text} (found : cut separator t = (first, some rest)) :
    separator ∉ first ∧ t = first ++ separator :: rest := by
  have member : separator ∈ t := by
    by_contra absent
    rw [← cut_eq_none_iff, found] at absent
    cases absent
  obtain ⟨first', rest', rfl, absent⟩ := List.eq_append_cons_of_mem member
  cases (cut_append rest' absent).symm.trans found
  exact ⟨absent, rfl⟩

theorem exists_of_readCall? {call : Text × List Text} (found : readCall? t = some call) :
    ∃ head inner tail : Text, t = head ++ .char '(' :: inner ++ .char ')' :: tail ∧ .char '(' ∉ head ∧
      (.char '(' ∉ inner ∧ .char ')' ∉ inner) ∧ AllBlank tail := by
  rw [readCall?] at found
  split at found
  next => cases found
  next name rest opened =>
    split_ifs at found with nested
    split at found
    next => cases found
    next inner tail closed =>
      split_ifs at found with empty
      obtain ⟨single, whole⟩ := eq_of_cut opened
      obtain ⟨flat, rfl⟩ := eq_of_cut closed
      obtain ⟨w, w', before, behind, around⟩ := exists_eq_trim t
      have unopened : CodePoint.char '(' ∉ w := not_mem_of_allBlank before (by decide)
      refine ⟨w ++ name, inner, tail ++ w', ?_, ?_, ⟨?_, flat⟩, ?_⟩
      · rw [around, whole]
        simp
      · simp [unopened, single]
      · exact fun member => nested (List.mem_append_left _ member)
      · exact (allBlank_of_trim (not_not.1 empty)).append behind

theorem isSome_readCall?_iff : (readCall? t).isSome = true ↔ t.count (.char '(') = 1 ∧
    ∃ before inner tail : Text, t = before ++ .char '(' :: inner ++ .char ')' :: tail ∧ .char ')' ∉ inner ∧
      AllBlank tail := by
  constructor
  · intro found
    obtain ⟨call, found⟩ := Option.isSome_iff_exists.1 found
    obtain ⟨head, inner, tail, rfl, single, flat, blank⟩ := exists_of_readCall? found
    have behind : CodePoint.char '(' ∉ tail := not_mem_of_allBlank blank (by decide)
    refine ⟨?_, head, inner, tail, rfl, flat.2, blank⟩
    simp [List.count_eq_zero_of_not_mem, single, flat.1, behind]
  · rintro ⟨single, before, inner, tail, rfl, flat, blank⟩
    rw [List.count_append, List.count_append, List.count_cons_self] at single
    have absent : CodePoint.char '(' ∉ before ∧ CodePoint.char '(' ∉ inner :=
      ⟨List.count_eq_zero.1 (by omega), List.count_eq_zero.1 (by omega)⟩
    rw [readCall?_call absent.1 ⟨absent.2, flat⟩ blank]
    rfl

/-- Items between commas are split off as they are. A call is read as its name and its arguments, however these
are kept apart, and a text is read as a call exactly when it has one opening parenthesis and nothing but blanks
behind the closing parenthesis that comes first after it. -/
theorem lists_read_back :
    (∀ items, (∀ item ∈ items, IsItem item) →
      splitOutsideParens (.char ',') ([.char ','].intercalate items) = items) ∧
    (∀ head inner arguments, .char '(' ∉ head → Lists inner arguments →
      readCall? (head ++ .char '(' :: inner ++ [.char ')']) = some (trim head, arguments)) ∧
    ∀ t, (readCall? t).isSome = true ↔ t.count (.char '(') = 1 ∧
      ∃ before inner tail : Text, t = before ++ .char '(' :: inner ++ .char ')' :: tail ∧
        .char ')' ∉ inner ∧ AllBlank tail := by
  refine ⟨?_, ?_, fun t => isSome_readCall?_iff⟩
  · intro items areItems
    exact splitOutsideParens_intercalate areItems
  · intro head inner arguments single lists
    exact readCall?_lists single lists

theorem lists_read_back_of_ornaments :
    (∀ item ∈ [of "a", " arp(1,(2, 3))", "strum(30) "], IsItem item) ∧
      splitOutsideParens (.char ',') "a, arp(1,(2, 3)),strum(30) " = [of "a", " arp(1,(2, 3))", "strum(30) "] ∧
      .char '(' ∉ of " arp " ∧ Lists "1 ,2" [of "1", "2"] ∧
      readCall? " arp (1 ,2)" = some (of "arp", [of "1", "2"]) := by
  have areItems : ∀ item ∈ [of "a", " arp(1,(2, 3))", "strum(30) "], IsItem item := by decide
  have single : .char '(' ∉ of " arp " := by decide
  have lists : Lists "1 ,2" [of "1", "2"] :=
    .more (by decide : IsArgument "1") (by decide : of " ," ≠ []) (by decide) (.one (by decide : IsArgument "2"))
  exact ⟨areItems, lists_read_back.1 _ areItems, single, lists, lists_read_back.2.1 " arp " "1 ,2" _ single lists⟩

end ScoreScript.Text
