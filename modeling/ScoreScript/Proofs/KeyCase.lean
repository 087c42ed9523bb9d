import ScoreScript.Compilation
import ScoreScript.Proofs.Continuation

set_option autoImplicit false

namespace ScoreScript

namespace CodePoint

variable {c : CodePoint}

theorem isAlpha_of_toLower (small : c.toLower.isSmall = true) : c.isAlpha = true := by
  cases c with
  | surrogate offset => exact Bool.or_eq_true_iff.2 (.inl small)
  | char c =>
    rw [isAlpha, Bool.or_eq_true]
    by_cases capital : c.val ≥ 'A'.val ∧ c.val ≤ 'Z'.val
    · right
      have low := UInt32.le_iff_toNat_le.1 capital.1
      have high := UInt32.le_iff_toNat_le.1 capital.2
      exact Bool.and_eq_true_iff.2 ⟨decide_eq_true low, decide_eq_true high⟩
    · left
      have same : c.toLower = c := dif_neg capital
      rwa [toLower, same] at small

theorem isBlank_of_isAlpha (letter : c.isAlpha = true) : Text.isBlank c = false := by
  have bounds : (0x61 ≤ c.toNat ∧ c.toNat ≤ 0x7A) ∨ (0x41 ≤ c.toNat ∧ c.toNat ≤ 0x5A) := by
    simpa [isAlpha, isSmall, isCapital] using letter
  simp only [Text.isBlank, Bool.or_eq_false_iff, Bool.and_eq_false_iff, decide_eq_false_iff_not]
  omega

theorem ne_of_isAlpha {mark : CodePoint} (letter : c.isAlpha = true) (other : mark.isAlpha = false) :
    c ≠ mark := by
  rintro rfl
  rw [letter] at other
  cases other

end CodePoint

def Score.headerKeys : List Text :=
  ["playlist", "bpm", "time", "transposition", "title", "by", "cc", "info"]

namespace Script

open Text

def IsHeaderKey (key : Text) : Prop := lower key ∈ Score.headerKeys

instance (key : Text) : Decidable (IsHeaderKey key) := inferInstanceAs (Decidable (_ ∈ _))

variable {key other : Text}

theorem IsHeaderKey.ne_nil (known : IsHeaderKey key) : key ≠ [] := by
  rintro rfl
  exact absurd known (by decide)

theorem IsHeaderKey.letters (known : IsHeaderKey key) : ∀ c ∈ key, c.isAlpha = true := by
  have small : ∀ key ∈ Score.headerKeys, ∀ c ∈ key, c.isSmall = true := by decide
  exact fun c member => CodePoint.isAlpha_of_toLower (small _ known _ (List.mem_map_of_mem member))

theorem IsHeaderKey.isKey (known : IsHeaderKey key) : isKey key = true := by
  have letters := known.letters
  obtain ⟨first, rest, rfl⟩ := List.exists_cons_of_ne_nil known.ne_nil
  obtain ⟨here, later⟩ := List.forall_mem_cons.1 letters
  have word : isKeyword (first :: rest) = true := by
    simp only [isKeyword, here, Bool.true_and, List.all_eq_true]
    intro c member
    simp [isWordChar, CodePoint.isAlphanum, later c member]
  rw [Script.isKey, word, Bool.true_or]

theorem IsHeaderKey.of_lower (known : IsHeaderKey key) (small : lower key = lower other) : IsHeaderKey other := by
  rwa [IsHeaderKey, ← small]

def SameKey (key other : Text) : Prop := key = other ∨ lower key = lower other ∧ IsHeaderKey key

theorem SameKey.nil_iff (same : SameKey key other) : key = [] ↔ other = [] := by
  obtain rfl | ⟨small, known⟩ := same
  · rfl
  · exact iff_of_false known.ne_nil (known.of_lower small).ne_nil

def RecasesKey (raw raw' : Text) : Prop :=
  ∃ left key key' right value, AllBlank left ∧ AllBlank right ∧ lower key = lower key' ∧ IsHeaderKey key ∧
    raw = left ++ (key ++ right ++ .char ':' :: value) ∧ raw' = left ++ (key' ++ right ++ .char ':' :: value)

theorem beforeComment_append {t : Text} (clear : .char '/' ∉ t) (u : Text) :
    beforeWord "//" (t ++ u) = t ++ beforeWord "//" u := by
  induction t with
  | nil => rfl
  | cons c rest ih =>
    rw [List.mem_cons, not_or] at clear
    have other : (Text.of "//").isPrefixOf (c :: (rest ++ u)) = false := by
      simp [Text.of, List.isPrefixOf, clear.1]
    rw [List.cons_append, beforeWord, other, if_neg Bool.false_ne_true, ih clear.2]
    rfl

def clearedValue (value : Text) : Text := trimRight isBlank (beforeWord "//" (trimRight isBlank value))

theorem content_append {left start : Text} (blank : AllBlank left) (present : start ≠ [])
    (first : ∀ c ∈ start.head?, isBlank c = false) (last : ∀ c ∈ start.getLast?, isBlank c = false)
    (clear : .char '/' ∉ start) (value : Text) : content (left ++ (start ++ value)) = start ++ clearedValue value := by
  rw [content, trim_append_left blank, trim_append_of_ends present first last, beforeComment_append clear,
    trim_append_of_ends present first last, clearedValue]

theorem shapeOf_of_letters {left right : Text} (before : AllBlank left) (behind : AllBlank right)
    (present : key ≠ []) (letters : ∀ c ∈ key, c.isAlpha = true) (value : Text) :
    shapeOf (content (left ++ (key ++ right ++ .char ':' :: value))) =
      .pair key (trim (clearedValue value)) := by
  have visible : ∀ c ∈ key, isBlank c = false := fun c member => CodePoint.isBlank_of_isAlpha (letters c member)
  have without (mark : CodePoint) (other : mark.isAlpha = false) (solid : isBlank mark = false) :
      mark ∉ key ++ right := by
    rw [List.mem_append, not_or]
    exact ⟨fun member => CodePoint.ne_of_isAlpha (letters mark member) other rfl,
      not_mem_of_allBlank behind solid⟩
  have colon := without (.char ':') (by decide) (by decide)
  have first : ∀ c ∈ key.head?, isBlank c = false := fun c here => visible c (List.mem_of_mem_head? here)
  have last : ∀ c ∈ key.getLast?, isBlank c = false := fun c here => visible c (List.mem_of_getLast? here)
  have cleared : content (left ++ (key ++ right ++ .char ':' :: value)) =
      key ++ right ++ .char ':' :: clearedValue value := by
    have slash : .char '/' ∉ key ++ right ++ [.char ':'] := by
      simpa [List.mem_append, not_or] using without (.char '/') (by decide) (by decide)
    have ends : ∀ c ∈ (key ++ right ++ [CodePoint.char ':']).getLast?, isBlank c = false := by
      rw [List.getLast?_concat]
      rintro c ⟨⟩
      decide
    have starts : ∀ c ∈ (key ++ right ++ [CodePoint.char ':']).head?, isBlank c = false := by
      rwa [List.append_assoc, List.head?_append_of_ne_nil _ present]
    have whole := content_append before (by simp) starts ends slash value
    simpa only [List.append_assoc, List.singleton_append] using whole
  have headerless : bracketed? (key ++ right ++ .char ':' :: clearedValue value) = none := by
    obtain ⟨initial, rest, rfl⟩ := List.exists_cons_of_ne_nil present
    have other : initial ≠ .char '[' := CodePoint.ne_of_isAlpha (letters initial (by simp)) (by decide)
    rw [bracketed?_eq]
    simp [isHeader, other]
  rw [cleared, shapeOf, headerless, cut_append _ colon]
  dsimp only
  rw [trim_append_right behind, trim_eq_self first last]

theorem RecasesKey.shapes {raw raw' : Text} (recases : RecasesKey raw raw') :
    ∃ key key' value, SameKey key key' ∧ shapeOf (content raw) = .pair key value ∧
      shapeOf (content raw') = .pair key' value := by
  obtain ⟨left, key, key', right, value, before, behind, small, known, rfl, rfl⟩ := recases
  have known' := known.of_lower small
  exact ⟨key, key', _, .inr ⟨small, known⟩, shapeOf_of_letters before behind known.ne_nil known.letters value,
    shapeOf_of_letters before behind known'.ne_nil known'.letters value⟩

def HasHeaderLines (name : Text) : Prop :=
  Score.compositionName <+: name ∧ ∀ c ∈ name.drop Score.compositionName.length, showsDigit c = true

instance (name : Text) : Decidable (HasHeaderLines name) := inferInstanceAs (Decidable (_ ∧ _))

theorem HasHeaderLines.of_parent {name parent : Text} (lends : parentName? name = some parent)
    (header : HasHeaderLines parent) : HasHeaderLines name := by
  unfold parentName? at lends
  split at lends
  next numbered =>
    cases lends
    obtain ⟨-, digit⟩ := numbered
    cases isLast : name.getLast? with
    | none => simp [isLast] at digit
    | some last =>
      rw [isLast] at digit
      have whole : name.dropLast ++ [last] = name := List.dropLast_append_getLast? last isLast
      refine ⟨header.1.trans (List.dropLast_prefix name), ?_⟩
      rw [← whole, List.drop_append_of_le_length header.1.length_le]
      exact List.forall_mem_append.2 ⟨header.2, List.forall_mem_singleton.2 digit⟩
  next => cases lends

structure Line.Recased (line line' : Line) : Prop where
  key : SameKey line.key line'.key
  value : line.value = line'.value
  number : line.number = line'.number

structure Section.Recased (s s' : Section) : Prop where
  name : s.name = s'.name
  number : s.number = s'.number
  lines : List.Forall₂ Line.Recased s.lines s'.lines
  same : ¬HasHeaderLines s.name → s.lines = s'.lines

namespace Reading

structure Recased (r r' : Reading) : Prop where
  closed : List.Forall₂ Section.Recased r.closed r'.closed
  current : Option.Rel Section.Recased r.current r'.current
  last : SameKey r.key r'.key
  same : ∀ s ∈ r.current, ¬HasHeaderLines s.name → r.key = r'.key
  reports : r.reports = r'.reports

variable {r r' : Reading} {s s' : Section}

theorem Recased.close (recased : r.Recased r') :
    List.Forall₂ Section.Recased r.close.closed r'.close.closed ∧ r.close.reports = r'.close.reports := by
  rw [closed_close, closed_close, reports_close, reports_close, recased.reports]
  have current := recased.current
  generalize r.current = s, r'.current = s' at current
  cases current with
  | none => exact ⟨List.rel_append recased.closed .nil, rfl⟩
  | some here =>
    refine ⟨List.rel_append recased.closed (.cons here .nil), ?_⟩
    simp [nameReports, here.name, here.number]

theorem recased_inherited (closed : List.Forall₂ Section.Recased r.closed r'.closed) (name : Text)
    (number : Nat) : Section.Recased ⟨name, number, r.inherited name⟩ ⟨name, number, r'.inherited name⟩ := by
  suffices lines : List.Forall₂ Line.Recased (r.inherited name) (r'.inherited name) ∧
      (¬HasHeaderLines name → r.inherited name = r'.inherited name) from ⟨rfl, rfl, lines.1, lines.2⟩
  unfold inherited
  cases lends : parentName? name with
  | none => exact ⟨.nil, fun _ => rfl⟩
  | some parent =>
    rw [Option.bind_some, Option.bind_some]
    have found := find?_related Section.Recased.name closed parent
    generalize find? r.closed parent = s, find? r'.closed parent = s' at found
    cases found with
    | none => exact ⟨.nil, fun _ => rfl⟩
    | some here =>
      obtain ⟨rfl, here⟩ := here
      exact ⟨here.lines, fun other => here.same fun header => other (header.of_parent lends)⟩

theorem Recased.openSection (recased : r.Recased r') (name : Text) (number : Nat) :
    (r.openSection name number).Recased (r'.openSection name number) :=
  ⟨recased.close.1, .some (recased_inherited recased.close.1 name number), .inl rfl, fun _ _ _ => rfl,
    recased.close.2⟩

theorem recased_enter (recased : r.Recased r') (here : s.Recased s') {line line' : Line}
    (added : line.Recased line') (same : ¬HasHeaderLines s.name → line = line') :
    (r.enter s line).Recased (r'.enter s' line') := by
  refine ⟨by simpa using recased.closed, ?_, by simpa using added.key, ?_, ?_⟩
  · rw [current_enter, current_enter]
    refine .some ⟨here.name, here.number, List.rel_append here.lines (.cons added .nil), fun other => ?_⟩
    rw [here.same other, same other]
  · rw [current_enter, key_enter, key_enter]
    rintro _ ⟨⟩ other
    rw [same other]
  · have report : (if isKey line.key then [] else [(⟨.invalidKey, line.key, line.number⟩ : Diagnostic)]) =
        if isKey line'.key then [] else [⟨.invalidKey, line'.key, line'.number⟩] := by
      rw [← added.number]
      obtain same | ⟨small, known⟩ := added.key
      · rw [same]
      · rw [known.isKey, (known.of_lower small).isKey]
        rfl
    rw [reports_enter, reports_enter, recased.reports, report]

theorem Recased.report (recased : r.Recased r') (kind : Diagnostic.Kind) (info : Text) (number : Nat) :
    (r.report kind info number).Recased (r'.report kind info number) :=
  ⟨recased.closed, recased.current, recased.last, recased.same, by
    rw [Reading.report, Reading.report, recased.reports]⟩

theorem Recased.line (recased : r.Recased r') (raw : Text) (number : Nat) :
    (r.line raw number).Recased (r'.line raw number) := by
  have current := recased.current
  have last := recased.same
  unfold Reading.line
  dsimp only
  cases shapeOf (content raw) with
  | blank => exact recased
  | header name => exact recased.openSection name number
  | pair key value =>
    generalize r.current = s, r'.current = s' at current
    cases current with
    | none => exact recased.report _ _ number
    | some here => exact recased_enter recased here ⟨.inl rfl, rfl, rfl⟩ fun _ => rfl
  | plain =>
    generalize r.current = s, r'.current = s' at current last
    cases current with
    | none => exact recased.report _ _ number
    | some here =>
      dsimp only
      by_cases none : r.key = []
      · rw [if_pos none, if_pos (recased.last.nil_iff.1 none)]
        exact recased.report _ _ number
      · rw [if_neg none, if_neg fun none' => none (recased.last.nil_iff.2 none')]
        exact recased_enter recased here ⟨recased.last, rfl, rfl⟩ fun other => by rw [last _ rfl other]

theorem Recased.line_of_recases (recased : r.Recased r') {raw raw' : Text} (recases : RecasesKey raw raw')
    (opened : r.current.map Section.name = some Score.compositionName) (number : Nat) :
    (r.line raw number).Recased (r'.line raw' number) := by
  obtain ⟨key, key', value, same, shape, shape'⟩ := recases.shapes
  have current := recased.current
  unfold Reading.line
  dsimp only
  rw [shape, shape']
  generalize r.current = s, r'.current = s' at current opened
  cases current with
  | none => cases opened
  | some here =>
    have named := Option.some.inj opened
    refine recased_enter recased here ⟨same, rfl, rfl⟩ fun other => absurd ?_ other
    rw [named]
    decide

end Reading

def openedBy (opened : Option Text) (raw : Text) : Option Text :=
  if isHeader (content raw) then some (headerName (content raw)) else opened

theorem Reading.name_line (r : Reading) (raw : Text) (number : Nat) :
    (r.line raw number).current.map Section.name = openedBy (r.current.map Section.name) raw := by
  unfold openedBy
  split
  next header =>
    rw [line_of_header number header]
    rfl
  next plain =>
    rw [Reading.line, shapeOf_eq, if_neg plain]
    cases opened : r.current <;> split_ifs <;> simp [Reading.report, opened]

inductive RecasedLines : Option Text → List Text → List Text → Prop where
  | nil (opened : Option Text) : RecasedLines opened [] []
  | same {opened : Option Text} {raws raws' : List Text} (raw : Text)
    (rest : RecasedLines (openedBy opened raw) raws raws') : RecasedLines opened (raw :: raws) (raw :: raws')
  | recased {raw raw' : Text} {raws raws' : List Text} (here : RecasesKey raw raw')
    (rest : RecasedLines (some Score.compositionName) raws raws') :
    RecasedLines (some Score.compositionName) (raw :: raws) (raw' :: raws')

theorem RecasedLines.refl (opened : Option Text) (raws : List Text) : RecasedLines opened raws raws := by
  induction raws generalizing opened with
  | nil => exact .nil opened
  | cons raw rest ih => exact .same raw (ih _)

def Recased (text text' : Text) : Prop :=
  RecasedLines none (text.splitOn (.char '\n')) (text'.splitOn (.char '\n'))

theorem Reading.Recased.lines {raws raws' : List Text} {opened : Option Text}
    (recased : RecasedLines opened raws raws') {r r' : Reading} (start : r.Recased r')
    (current : r.current.map Section.name = opened) (number : Nat) :
    (r.lines number raws).Recased (r'.lines number raws') := by
  induction recased generalizing r r' number with
  | nil => exact start
  | same raw _ ih =>
    refine ih (start.line raw number) ?_ (number + 1)
    rw [name_line, current]
  | @recased raw raw' _ _ here _ ih =>
    refine ih (start.line_of_recases here current number) ?_ (number + 1)
    -- a line with a key is no header
    obtain ⟨key, -, value, -, shape, -⟩ := here.shapes
    have plain : ¬isHeader (content raw) = true := by
      intro header
      rw [shapeOf_eq, if_pos header] at shape
      cases shape
    rw [name_line, openedBy, if_neg plain, current]

theorem Recased.parse {text text' : Text} (recased : Script.Recased text text') :
    List.Forall₂ Section.Recased (parse text).1 (parse text').1 ∧ (parse text).2 = (parse text').2 := by
  have start : Reading.Recased {} {} := ⟨.nil, .none, .inl rfl, fun _ _ _ => rfl, rfl⟩
  exact (Reading.Recased.lines recased start rfl 1).close

end Script

end ScoreScript
