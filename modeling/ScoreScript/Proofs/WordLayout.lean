import ScoreScript.Proofs.PhraseWords

set_option autoImplicit false

namespace ScoreScript.Text

def IsBare (t : Text) : Prop := ∀ c ∈ t, isBracket c = false

instance (t : Text) : Decidable (IsBare t) := inferInstanceAs (Decidable (∀ c ∈ t, isBracket c = false))

structure IsWord (t : Text) : Prop extends IsSolid t where
  whole : (∃ c ∈ t, isBracket c = true ∧ t = [c]) ∨ IsBare t

instance (t : Text) : Decidable (IsWord t) :=
  decidable_of_iff ((t ≠ [] ∧ ∀ c ∈ t, isBlank c = false) ∧
      ((∃ c ∈ t, isBracket c = true ∧ t = [c]) ∨ IsBare t))
    ⟨fun ⟨⟨present, visible⟩, whole⟩ => ⟨⟨present, visible⟩, whole⟩,
      fun isWord => ⟨⟨isWord.present, isWord.visible⟩, isWord.whole⟩⟩

def IsApart (t : Text) (row : List Text) : Prop :=
  ∀ next ∈ row.head?, IsBare next → ∃ c ∈ t.head?, isBlank c = true

/-- A text made of words in order, with blanks before each of them and at its end. Between two words without
brackets there is at least one blank. -/
inductive IsLaidOut : Text → List Text → Prop
  | blank {w : Text} (blank : AllBlank w) : IsLaidOut w []
  | word {w word t : Text} {row : List Text} (blank : AllBlank w) (isWord : IsWord word)
    (later : IsLaidOut t row) (apart : IsBare word → IsApart t row) :
    IsLaidOut (w ++ (word ++ t)) (word :: row)

variable {w t word : Text} {row : List Text} {c : CodePoint}

theorem not_isBare (bracket : isBracket c = true) : ¬IsBare [c] := by simp [IsBare, bracket]

theorem IsWord.isUncut (isWord : IsWord word) (bare : IsBare word) : word.IsUncut := ⟨isWord.toIsSolid, bare⟩

theorem isWord_of_isBracket (bracket : isBracket c = true) : IsWord [c] where
  present := by simp
  visible := by simpa using isBlank_of_isBracket bracket
  whole := .inl ⟨c, by simp, bracket, rfl⟩

theorem IsUncut.isWord (uncut : word.IsUncut) : IsWord word := ⟨uncut.toIsSolid, .inr uncut.unbracketed⟩

theorem isWord_of_mem_words (member : word ∈ words t) : IsWord word := by
  rcases isUncut_of_mem_words member with ⟨c, bracket, rfl⟩ | uncut
  · exact isWord_of_isBracket bracket
  · exact uncut.isWord

theorem words_of_isWord (isWord : IsWord word) : words word = [word] := by
  rcases isWord.whole with ⟨c, -, bracket, rfl⟩ | bare
  · exact words_append_bracket bracket [] []
  · exact words_of_isUncut (isWord.isUncut bare)

theorem IsLaidOut.prepend (laid : IsLaidOut t row) (blank : AllBlank w) : IsLaidOut (w ++ t) row := by
  cases laid with
  | blank behind => exact .blank (blank.append behind)
  | word between isWord later apart =>
    rw [← List.append_assoc]
    exact .word (blank.append between) isWord later apart

theorem IsLaidOut.finish {pending : Text} (laid : IsLaidOut t row)
    (plain : ∀ c ∈ pending, isBlank c = false ∧ isBracket c = false) (apart : IsApart t row) :
    IsLaidOut (pending ++ t) (words.finished pending ++ row) := by
  unfold words.finished
  split_ifs with none
  · rw [none]
    exact laid
  · have uncut : pending.IsUncut :=
      ⟨⟨none, fun c inside => (plain c inside).1⟩, fun c inside => (plain c inside).2⟩
    exact .word allBlank_nil uncut.isWord laid fun _ => apart

theorem isLaidOut_go (t pending : Text) (plain : ∀ c ∈ pending, isBlank c = false ∧ isBracket c = false) :
    IsLaidOut (pending ++ t) (words.go pending t) := by
  -- induction on what is still to be read, with what has been read of a word in front of it
  induction t generalizing pending with
  | nil =>
    have ended : IsLaidOut [] [] := .blank allBlank_nil
    simpa [words.go] using ended.finish plain (by simp [IsApart])
  | cons c rest ih =>
    have later : IsLaidOut rest (words.go [] rest) := ih [] (by simp)
    rw [words.go]
    split_ifs with blank bracket
    · have spaced : IsLaidOut (c :: rest) (words.go [] rest) :=
        later.prepend (w := [c]) (by simpa [AllBlank] using blank)
      exact spaced.finish plain fun _ _ _ => ⟨c, rfl, blank⟩
    · have signed : IsLaidOut (c :: rest) ([c] :: words.go [] rest) :=
        .word allBlank_nil (isWord_of_isBracket bracket) later fun bare => absurd bare (not_isBare bracket)
      refine signed.finish plain ?_
      rintro _ ⟨⟩ bare
      exact absurd bare (not_isBare bracket)
    · rw [List.append_cons]
      refine ih _ (List.forall_mem_append.2 ⟨plain, ?_⟩)
      simpa using And.intro blank bracket

theorem isLaidOut_words (t : Text) : IsLaidOut t (words t) := isLaidOut_go t [] (by simp)

theorem words_prepend (blank : AllBlank w) (t : Text) : words (w ++ t) = words t := by
  induction w with
  | nil => rfl
  | cons c rest ih =>
    obtain ⟨here, later⟩ := List.forall_mem_cons.1 blank
    exact (words_append_blank here [] (rest ++ t)).trans (ih later)

theorem words_append (uncut : word.IsUncut) (ends : ∀ c ∈ t.head?, isBlank c = true ∨ isBracket c = true) :
    words (word ++ t) = word :: words t := by
  cases t with
  | nil =>
    rw [List.append_nil, words_of_isUncut uncut]
    rfl
  | cons c rest =>
    rcases ends c rfl with blank | bracket
    · have behind : words (c :: rest) = words rest := words_append_blank blank [] rest
      rw [words_append_blank blank, words_of_isUncut uncut, behind, List.singleton_append]
    · have behind : words (c :: rest) = [c] :: words rest := words_append_bracket bracket [] rest
      rw [words_append_bracket bracket, words_of_isUncut uncut, behind, List.singleton_append]

theorem IsLaidOut.start (laid : IsLaidOut t row) (apart : IsApart t row) :
    ∀ c ∈ t.head?, isBlank c = true ∨ isBracket c = true := by
  intro c first
  cases laid with
  | blank blank => exact .inl (blank c (List.mem_of_mem_head? first))
  | @word w word t row blank isWord later _ =>
    rcases isWord.whole with ⟨d, -, bracket, rfl⟩ | bare
    · cases w with
      | nil =>
        obtain rfl : d = c := by simpa using first
        exact .inr bracket
      | cons e rest =>
        obtain rfl : e = c := by simpa using first
        exact .inl (blank e (List.mem_cons_self ..))
    · obtain ⟨d, first', visible⟩ := apart word rfl bare
      obtain rfl : d = c := Option.mem_unique first' first
      exact .inl visible

theorem IsLaidOut.words_eq (laid : IsLaidOut t row) : words t = row := by
  induction laid with
  | blank blank => exact words_eq_nil.2 blank
  | @word w word t row blank isWord later apart ih =>
    rw [words_prepend blank]
    rcases isWord.whole with ⟨c, -, bracket, rfl⟩ | bare
    · rw [← ih]
      exact words_append_bracket bracket [] t
    · rw [words_append (isWord.isUncut bare) (later.start (apart bare)), ih]

theorem isLaidOut_iff : IsLaidOut t row ↔ row = words t :=
  ⟨fun laid => laid.words_eq.symm, fun same => same ▸ isLaidOut_words t⟩

theorem IsLaidOut.flatten_eq (laid : IsLaidOut t row) : row.flatten = t.filter (!isBlank ·) := by
  have gone {w : Text} (blank : AllBlank w) : w.filter (!isBlank ·) = [] :=
    List.filter_eq_nil_iff.2 fun c inside => by simp [blank c inside]
  induction laid with
  | blank blank => exact (gone blank).symm
  | @word w word t row blank isWord _ _ ih =>
    have kept : word.filter (!isBlank ·) = word :=
      List.filter_eq_self.2 fun c inside => by simp [isWord.visible c inside]
    rw [List.flatten_cons, ih, List.filter_append, List.filter_append, gone blank, kept, List.nil_append]

/-- The words of a text, one after another, are the text without its blanks, and the text is laid out as these
words and as no others. Words with single blanks between them are the words of the text that they make up. -/
theorem words_make_up_text (t : Text) :
    (∀ word ∈ words t, IsWord word) ∧ (words t).flatten = t.filter (!isBlank ·) ∧
      (∀ row, IsLaidOut t row ↔ row = words t) ∧
      ∀ row, (∀ word ∈ row, IsWord word) → words ([.char ' '].intercalate row) = row := by
  refine ⟨fun _ => isWord_of_mem_words, (isLaidOut_words t).flatten_eq, fun _ => isLaidOut_iff, ?_⟩
  intro row areWords
  have each : ∀ word ∈ row, words word = [word] := fun word member => words_of_isWord (areWords word member)
  rw [words_intercalate (by decide), List.flatMap_congr each, List.flatMap_singleton']

theorem words_make_up_text_of_halvedNotes :
    (∀ word ∈ [of "1", "(", "2-", "3", ")"], IsWord word) ∧
      words "1 ( 2- 3 )" = [of "1", "(", "2-", "3", ")"] := by
  have areWords : ∀ word ∈ [of "1", "(", "2-", "3", ")"], IsWord word := by decide
  exact ⟨areWords, (words_make_up_text "1 ( 2- 3 )").2.2.2 _ areWords⟩

end ScoreScript.Text
