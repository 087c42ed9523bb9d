import ScoreScript.Proofs.StepText

set_option autoImplicit false

namespace ScoreScript.Text

structure IsUncut (t : Text) : Prop extends IsSolid t where
  unbracketed : ∀ c ∈ t, isBracket c = false

variable {c : CodePoint}

theorem IsSolid.trim_eq {t : Text} (solid : t.IsSolid) : trim t = t :=
  trim_eq_self (fun c head => solid.visible c (List.mem_of_mem_head? head))
    fun c last => solid.visible c (List.mem_of_mem_getLast? last)

theorem IsUncut.notMem {t : Text} (uncut : t.IsUncut) (bracket : isBracket c = true) : c ∉ t := by
  intro inside
  rw [uncut.unbracketed c inside] at bracket
  cases bracket

theorem isBlank_of_isBracket (bracket : isBracket c = true) : isBlank c = false := by
  simp only [isBracket, Bool.or_eq_true, decide_eq_true_eq] at bracket
  rcases bracket with ((((rfl | rfl) | rfl) | rfl) | rfl) | rfl <;> decide

theorem words_append_bracket (bracket : isBracket c = true) (t u : Text) :
    words (t ++ c :: u) = words t ++ [c] :: words u := by
  have visible := isBlank_of_isBracket bracket
  have go (pending : Text) : words.go pending (t ++ c :: u) = words.go pending t ++ [c] :: words u := by
    induction t generalizing pending with
    | nil => simp [words, words.go, visible, bracket]
    | cons d rest ih =>
      rw [List.cons_append, words.go, words.go]
      split_ifs <;> simp [ih]
  exact go []

theorem words_append_blank (blank : isBlank c = true) (t u : Text) :
    words (t ++ c :: u) = words t ++ words u := by
  have go (pending : Text) : words.go pending (t ++ c :: u) = words.go pending t ++ words u := by
    induction t generalizing pending with
    | nil => simp [words, words.go, blank]
    | cons d rest ih =>
      rw [List.cons_append, words.go, words.go]
      split_ifs <;> simp [ih]
  exact go []

theorem words_of_isUncut {t : Text} (uncut : t.IsUncut) : words t = [t] := by
  have go (pending rest : Text) (uncut : ∀ c ∈ rest, isBlank c = false ∧ isBracket c = false) :
      words.go pending rest = words.finished (pending ++ rest) := by
    induction rest generalizing pending with
    | nil => simp [words.go]
    | cons c rest ih =>
      obtain ⟨⟨visible, unbracketed⟩, later⟩ := List.forall_mem_cons.1 uncut
      simp [words.go, visible, unbracketed, ih _ later]
  have whole := go [] t fun c member => ⟨uncut.visible c member, uncut.unbracketed c member⟩
  rw [List.nil_append, words.finished, if_neg uncut.present] at whole
  exact whole

theorem words_intercalate (blank : isBlank c = true) (texts : List Text) :
    words ([c].intercalate texts) = texts.flatMap words := by
  induction texts with
  | nil => rfl
  | cons t rest ih =>
    cases rest with
    | nil => simp
    | cons u others =>
      rw [List.intercalate_cons_cons, List.append_assoc, List.singleton_append, words_append_blank blank, ih]
      rfl

theorem isUncut_of_mem_words {t word : Text} (member : word ∈ words t) :
    (∃ c, isBracket c = true ∧ word = [c]) ∨ word.IsUncut := by
  have finished {pending : Text} (unbracketed : ∀ c ∈ pending, isBracket c = false)
      (member : word ∈ words.finished pending) : ∀ c ∈ word, isBracket c = false := by
    unfold words.finished at member
    split at member
    · cases member
    · rwa [List.mem_singleton.1 member]
  have go (t pending : Text) (unbracketed : ∀ c ∈ pending, isBracket c = false)
      (member : word ∈ words.go pending t) :
      (∃ c, isBracket c = true ∧ word = [c]) ∨ ∀ c ∈ word, isBracket c = false := by
    induction t generalizing pending with
    | nil => exact .inr (finished unbracketed member)
    | cons c rest ih =>
      unfold words.go at member
      split_ifs at member with blank bracket
      · rcases List.mem_append.1 member with here | later
        · exact .inr (finished unbracketed here)
        · exact ih [] (by simp) later
      · rcases List.mem_append.1 member with here | later
        · exact .inr (finished unbracketed here)
        · rcases List.mem_cons.1 later with rfl | later
          · exact .inl ⟨c, bracket, rfl⟩
          · exact ih [] (by simp) later
      · refine ih _ ?_ member
        exact List.forall_mem_append.2 ⟨unbracketed, by simpa using bracket⟩
  exact (go t [] (by simp) member).imp_right fun unbracketed => ⟨isSolid_of_mem_words member, unbracketed⟩

end ScoreScript.Text
