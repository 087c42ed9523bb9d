import ScoreScript.Proofs.Trimmed

set_option autoImplicit false

namespace ScoreScript

namespace Text

theorem subset_of_mem_splitOn {separator : CodePoint} {t part : Text} (member : part ∈ t.splitOn separator) :
    part ⊆ t := by
  rw [List.splitOn_eq_splitOnP] at member
  exact fun c inside => (mem_of_mem_splitOnP member c inside).1

structure IsSolid (t : Text) : Prop where
  present : t ≠ []
  visible : ∀ c ∈ t, isBlank c = false

theorem IsSolid.exists_mem {t : Text} (solid : t.IsSolid) : ∃ c ∈ t, isBlank c = false := by
  obtain ⟨c, member⟩ := List.exists_mem_of_ne_nil t solid.present
  exact ⟨c, member, solid.visible c member⟩

theorem isSolid_of_mem_words {t word : Text} (member : word ∈ words t) : word.IsSolid := by
  have finished {pending : Text} (visible : ∀ c ∈ pending, isBlank c = false)
      (member : word ∈ words.finished pending) : word.IsSolid := by
    unfold words.finished at member
    split at member
    · cases member
    next present =>
      obtain rfl := List.mem_singleton.1 member
      exact ⟨present, visible⟩
  have go (t pending : Text) (visible : ∀ c ∈ pending, isBlank c = false)
      (member : word ∈ words.go pending t) : word.IsSolid := by
    induction t generalizing pending with
    | nil => exact finished visible member
    | cons c rest ih =>
      unfold words.go at member
      split_ifs at member with blank bracket
      · rcases List.mem_append.1 member with here | later
        · exact finished visible here
        · exact ih [] (by simp) later
      · rcases List.mem_append.1 member with here | later
        · exact finished visible here
        · rcases List.mem_cons.1 later with rfl | later
          · exact ⟨by simp, by simpa using blank⟩
          · exact ih [] (by simp) later
      · refine ih _ ?_ member
        exact List.forall_mem_append.2 ⟨visible, by simpa using blank⟩
  exact go t [] (by simp) member

end Text

open Text

namespace Step.Draft

variable {d : Draft}

def Shows (d : Draft) : Prop := d.error.isSome = true ∨ ∃ c ∈ d.text, isBlank c = false

theorem shows_fail (d : Draft) (kind : Diagnostic.Kind) : (d.fail kind).Shows := by
  unfold Shows fail
  cases d.error <;> simp

theorem shows_of_subset {other : Draft} (shows : d.Shows) (error : d.error = other.error)
    (text : d.text ⊆ other.text) : other.Shows := by
  rcases shows with failed | ⟨c, member, visible⟩
  · exact .inl (error ▸ failed)
  · exact .inr ⟨c, text member, visible⟩

theorem foldl_shows {α : Type} {add : Draft → α → Draft} {isShown : α → Prop} {items : List α}
    (step : ∀ item ∈ items, ∀ d : Draft, d.Shows ∨ isShown item → (add d item).Shows)
    (shows : d.Shows ∨ ∃ item ∈ items, isShown item) : (items.foldl add d).Shows := by
  induction items generalizing d with
  | nil => simpa using shows
  | cons item rest ih =>
    obtain ⟨here, later⟩ := List.forall_mem_cons.1 step
    refine ih later ?_
    rcases shows with shows | ⟨shown, member, hit⟩
    · exact .inl (here d (.inl shows))
    · rcases List.mem_cons.1 member with rfl | behind
      · exact .inl (here d (.inr hit))
      · exact .inr ⟨shown, behind, hit⟩

theorem addDrum_shows {letter : CodePoint} (visible : isBlank letter = false)
    (shows : d.Shows ∨ letter ≠ .char '.') : (d.addDrum letter).Shows := by
  unfold addDrum
  split
  next rest => exact shows.resolve_right (not_not.2 rest)
  next => exact .inr ⟨letter, by simp, visible⟩

theorem addDrums_shows {letters : Text} (visible : ∀ c ∈ letters, isBlank c = false)
    (shows : d.Shows ∨ ∃ c ∈ letters, c ≠ .char '.') : (d.addDrums letters).Shows :=
  foldl_shows (fun letter member _ => addDrum_shows (visible letter member)) shows

theorem addDrums_rests {letters : Text} (rests : ∀ c ∈ letters, c = .char '.') : d.addDrums letters = d := by
  unfold addDrums
  induction letters with
  | nil => rfl
  | cons letter rest ih =>
    obtain ⟨rfl, later⟩ := List.forall_mem_cons.1 rests
    exact ih later

theorem finish_text (d : Draft) (velocity length : Int) :
    (d.finish velocity length).text = if d.kind = .text then d.text else trim d.text := by
  unfold finish
  dsimp only
  split_ifs <;> rfl

theorem finish_text_ne_nil {word : Text} (solid : word.IsSolid) (shows : d.Shows) (velocity length : Int) :
    ((d.markIfError word).finish velocity length).text ≠ [] := by
  have letter : ∃ c ∈ (d.markIfError word).text, isBlank c = false := by
    unfold markIfError
    split
    next failed =>
      have marked : (d.mark word).text = word := by
        unfold mark
        dsimp only
        split <;> rfl
      rw [marked]
      exact solid.exists_mem
    next fine => exact shows.resolve_left fine
  obtain ⟨c, member, visible⟩ := letter
  rw [finish_text]
  split
  · exact List.ne_nil_of_mem member
  · exact List.ne_nil_of_mem (mem_trim visible member)

end Step.Draft

namespace Notation

variable {ctx : Context} {part word chord : Text} {d : Step.Draft}

def Part.IsMute : Part → Prop
  | .ornament _ => True
  | .drums letters => ∀ c ∈ letters, c = .char '.'
  | .literal _ _ | .sample _ | .text _ _ | .degrees _ | .invalid _ _ => False

instance (p : Part) : Decidable p.IsMute :=
  match p with
  | .ornament _ => isTrue trivial
  | .drums letters => inferInstanceAs (Decidable (∀ c ∈ letters, c = .char '.'))
  | .literal _ _ | .sample _ | .text _ _ | .degrees _ | .invalid _ _ => isFalse id

def IsMute (ctx : Context) (word : Text) : Prop :=
  ∀ part ∈ (undotted word).splitOn (.char '/'), part ≠ [] ∧ (Part.resolve ctx part []).IsMute

instance (ctx : Context) (word : Text) : Decidable (IsMute ctx word) :=
  inferInstanceAs (Decidable (∀ part ∈ (undotted word).splitOn (.char '/'),
    part ≠ [] ∧ (Part.resolve ctx part []).IsMute))

inductive Part.IsOf (part : Text) : Part → Prop where
  | literal (pitch : Int) : IsOf part (.literal part pitch)
  | sample : IsOf part (.sample part)
  | ornament (ornament : Option Ornament) : IsOf part (.ornament ornament)
  | drums : IsOf part (.drums part)
  | text (isChord : Bool) : IsOf part (.text part isChord)

theorem Part.isOf_resolve (other : ctx.category ≠ .synth) (part chord : Text) :
    Part.IsOf part (Part.resolve ctx part chord) := by
  unfold Part.resolve
  split
  · exact .literal _
  · split
    · exact .sample
    · split
      · exact .ornament _
      · unfold Part.ofCategory
        split
        · exact .drums
        · exact .drums
        · exact .text _
        · exact .text _
        next synth => exact absurd synth other

theorem addPart_mute {p : Part} (mute : p.IsMute) :
    (addPart ctx d p).text = d.text ∧ (addPart ctx d p).error = d.error := by
  cases p with
  | ornament ornament => exact ⟨rfl, rfl⟩
  | drums letters =>
    rw [addPart, Step.Draft.addDrums_rests mute]
    exact ⟨rfl, rfl⟩
  | literal | sample | text | degrees | invalid => exact mute.elim

theorem addPart_shows {p : Part} (of : p.IsOf part) (solid : part.IsSolid) (shows : d.Shows ∨ ¬p.IsMute) :
    (addPart ctx d p).Shows := by
  obtain ⟨c, member, visible⟩ := solid.exists_mem
  cases of with
  | literal pitch =>
    refine .inr ⟨c, ?_, visible⟩
    simp only [addPart, Step.Draft.addLiteral]
    split <;> simp [member, Step.Draft.addNote]
  | sample => exact .inr ⟨c, by simp [addPart, Step.Draft.addSample, member], visible⟩
  | ornament ornament =>
    exact Step.Draft.shows_of_subset (shows.resolve_right (not_not.2 trivial)) rfl (List.Subset.refl _)
  | drums =>
    exact Step.Draft.addDrums_shows solid.visible (shows.imp_right fun hit => by simpa [Part.IsMute] using hit)
  | text isChord =>
    simp only [addPart]
    split
    · exact Step.Draft.shows_fail _ _
    · exact .inr ⟨c, member, visible⟩

theorem addPartText_shows (other : ctx.category ≠ .synth) (chord : Text)
    (visible : ∀ c ∈ part, isBlank c = false)
    (shows : d.Shows ∨ ¬(part ≠ [] ∧ (Part.resolve ctx part chord).IsMute)) :
    (addPartText ctx chord d part).Shows := by
  unfold addPartText
  split
  · exact Step.Draft.shows_fail d .syntaxError
  next present =>
    exact addPart_shows (Part.isOf_resolve other part chord) ⟨present, visible⟩
      (shows.imp_right fun hit mute => hit ⟨present, mute⟩)

theorem addPartTexts_mute {parts : List Text}
    (mute : ∀ part ∈ parts, part ≠ [] ∧ (Part.resolve ctx part chord).IsMute) :
    (parts.foldl (addPartText ctx chord) d).text = d.text ∧
      (parts.foldl (addPartText ctx chord) d).error = d.error := by
  induction parts generalizing d with
  | nil => exact ⟨rfl, rfl⟩
  | cons part rest ih =>
    obtain ⟨⟨present, here⟩, later⟩ := List.forall_mem_cons.1 mute
    have step : addPartText ctx chord d part = addPart ctx d (Part.resolve ctx part chord) := if_neg present
    rw [List.foldl_cons, step]
    obtain ⟨text, error⟩ := ih (d := addPart ctx d (Part.resolve ctx part chord)) later
    exact ⟨text.trans (addPart_mute here).1, error.trans (addPart_mute here).2⟩

theorem isSolid_undotted (solid : word.IsSolid) : (undotted word).IsSolid := by
  unfold undotted
  split
  next dotted =>
    have long : 1 < word.length := by
      simp only [isDotted, Bool.and_eq_true, decide_eq_true_eq] at dotted
      exact dotted.1
    refine ⟨fun empty => ?_, fun c member => solid.visible c (List.dropLast_subset word member)⟩
    have : word.length - 1 = 0 := by rw [← List.length_dropLast, empty, List.length_nil]
    omega
  · exact solid

theorem text_stepOf_eq_nil (other : ctx.category ≠ .synth) (solid : word.IsSolid) (length : Int)
    (chord : Text) : (stepOf ctx word length chord).text = [] ↔ IsMute ctx word := by
  have same (part : Text) : Part.resolve ctx part [] = Part.resolve ctx part chord :=
    Part.resolve_of_not_synth other part [] chord
  simp only [IsMute, same]
  have solid := isSolid_undotted solid
  constructor
  · intro empty
    by_contra loud
    push Not at loud
    obtain ⟨part, member, hit⟩ := loud
    have shows : (((undotted word).splitOn (.char '/')).foldl (addPartText ctx chord) {}).Shows :=
      Step.Draft.foldl_shows (fun part member _ => addPartText_shows other chord fun c inside =>
        solid.visible c (subset_of_mem_splitOn member inside))
        (.inr ⟨part, member, fun mute => hit mute.1 mute.2⟩)
    exact Step.Draft.finish_text_ne_nil solid shows ctx.velocity _ empty
  · intro mute
    obtain ⟨text, error⟩ := addPartTexts_mute (d := {}) mute
    rw [stepOf, draftOf, Step.Draft.markIfError, if_neg (by simp [error]), Step.Draft.finish_text, text]
    simp

end Notation

end ScoreScript
