import Mathlib.Computability.RegularExpressions
import ScoreScript.Script.Section

set_option autoImplicit false

namespace ScoreScript.Script

open Text

def latinLetters : Text := "ABCDEFGHIJKLMNOPQRSTUVWXYZabcdefghijklmnopqrstuvwxyz"

def figures : Text := "0123456789"

def pathLetters : Text := latinLetters ++ figures ++ "_-."

def oneOf (listed : Text) : RegularExpression CodePoint := (listed.map RegularExpression.char).sum

def wordOf (first later : Text) : RegularExpression CodePoint := oneOf first * (oneOf later).star

def oneOrMore (pattern : RegularExpression CodePoint) : RegularExpression CodePoint := pattern * pattern.star

/-- The pattern `[A-Za-z][A-Za-z0-9_-]*`. -/
def keywordPattern : RegularExpression CodePoint := wordOf latinLetters (latinLetters ++ figures ++ "_-")

/-- The pattern `/[A-Za-z0-9_.-]+`. -/
def segmentPattern : RegularExpression CodePoint := .char (.char '/') * wordOf pathLetters pathLetters

def relativePattern : RegularExpression CodePoint :=
  wordOf latinLetters pathLetters * oneOrMore segmentPattern

/-- The pattern `/?[A-Za-z][A-Za-z0-9_.-]*(/[A-Za-z0-9_.-]+)+`. -/
def pathPattern : RegularExpression CodePoint := (1 + .char (.char '/')) * relativePattern

variable {listed first later t : Text} {c : CodePoint}

theorem mem_oneOf : t ∈ (oneOf listed).matches' ↔ ∃ c, c ∈ listed ∧ [c] = t := by
  unfold oneOf
  induction listed with
  | nil => simp
  | cons c rest ih =>
    have single : t ∈ (RegularExpression.char c).matches' ↔ t = [c] := Iff.rfl
    rw [List.map_cons, List.sum_cons, RegularExpression.matches'_add, Language.mem_add, ih, single]
    simp [eq_comm]

theorem mem_star {pattern : RegularExpression CodePoint} {A : Type} {IsPart : A → Prop} {text : A → Text}
    (matched : ∀ u, u ∈ pattern.matches' ↔ ∃ part, IsPart part ∧ text part = u) :
    t ∈ pattern.star.matches' ↔ ∃ parts : List A, (∀ part ∈ parts, IsPart part) ∧ parts.flatMap text = t := by
  rw [RegularExpression.matches'_star, Language.mem_kstar]
  constructor
  · rintro ⟨texts, rfl, each⟩
    induction texts with
    | nil => exact ⟨[], by simp, rfl⟩
    | cons u rest ih =>
      obtain ⟨here, later⟩ := List.forall_mem_cons.1 each
      obtain ⟨part, isPart, rfl⟩ := (matched u).1 here
      obtain ⟨parts, areParts, joined⟩ := ih later
      refine ⟨part :: parts, List.forall_mem_cons.2 ⟨isPart, areParts⟩, ?_⟩
      rw [List.flatMap_cons, joined, List.flatten_cons]
  · rintro ⟨parts, areParts, rfl⟩
    refine ⟨parts.map text, List.flatMap_def, fun u member => ?_⟩
    obtain ⟨part, inside, rfl⟩ := List.mem_map.1 member
    exact (matched _).2 ⟨part, areParts part inside, rfl⟩

theorem mem_wordOf :
    t ∈ (wordOf first later).matches' ↔ ∃ c rest, (c ∈ first ∧ ∀ d ∈ rest, d ∈ later) ∧ c :: rest = t := by
  have mem_later {u : Text} : u ∈ (oneOf later).star.matches' ↔ ∀ d ∈ u, d ∈ later := by
    rw [mem_star fun u => mem_oneOf]
    simp
  rw [wordOf, RegularExpression.matches'_mul, Language.mem_mul]
  constructor
  · rintro ⟨one, begun, rest, others, rfl⟩
    obtain ⟨c, known, rfl⟩ := mem_oneOf.1 begun
    exact ⟨c, rest, ⟨known, mem_later.1 others⟩, rfl⟩
  · rintro ⟨c, rest, ⟨known, others⟩, rfl⟩
    exact ⟨[c], mem_oneOf.2 ⟨c, known, rfl⟩, rest, mem_later.2 others, rfl⟩

structure IsSegment (t : Text) : Prop where
  present : t ≠ []
  listed : ∀ c ∈ t, c ∈ pathLetters

theorem mem_segmentPattern :
    t ∈ segmentPattern.matches' ↔ ∃ segment, IsSegment segment ∧ .char '/' :: segment = t := by
  rw [segmentPattern, RegularExpression.matches'_mul, Language.mem_mul]
  constructor
  · rintro ⟨_, rfl, segment, written, rfl⟩
    obtain ⟨c, rest, ⟨known, others⟩, rfl⟩ := mem_wordOf.1 written
    exact ⟨c :: rest, ⟨by simp, List.forall_mem_cons.2 ⟨known, others⟩⟩, rfl⟩
  · rintro ⟨segment, isSegment, rfl⟩
    obtain ⟨c, rest, rfl⟩ := List.exists_cons_of_ne_nil isSegment.present
    obtain ⟨known, others⟩ := List.forall_mem_cons.1 isSegment.listed
    exact ⟨_, rfl, c :: rest, mem_wordOf.2 ⟨c, rest, ⟨known, others⟩, rfl⟩, rfl⟩

theorem intercalate_slash (segment : Text) (others : List Text) :
    [CodePoint.char '/'].intercalate (segment :: others) = segment ++ others.flatMap (.char '/' :: ·) := by
  induction others generalizing segment with
  | nil => simp
  | cons next rest ih =>
    rw [List.intercalate_cons_cons, ih, List.flatMap_cons, List.append_assoc]
    rfl

structure IsRoute (segments : List Text) : Prop where
  several : 2 ≤ segments.length
  isSegment : ∀ segment ∈ segments, IsSegment segment
  begins : ∀ segment ∈ segments.head?, ∀ c ∈ segment.head?, c ∈ latinLetters

theorem mem_relativePattern :
    t ∈ relativePattern.matches' ↔ ∃ segments, IsRoute segments ∧ [CodePoint.char '/'].intercalate segments = t := by
  have mem_rest {u : Text} := mem_star (t := u) fun _ => mem_segmentPattern
  rw [relativePattern, oneOrMore, RegularExpression.matches'_mul, Language.mem_mul]
  constructor
  · rintro ⟨_, begun, _, continued, rfl⟩
    obtain ⟨c, rest, ⟨known, others⟩, rfl⟩ := mem_wordOf.1 begun
    rw [RegularExpression.matches'_mul, Language.mem_mul] at continued
    obtain ⟨_, second, _, more, rfl⟩ := continued
    obtain ⟨next, isSegment, rfl⟩ := mem_segmentPattern.1 second
    obtain ⟨segments, areSegments, rfl⟩ := mem_rest.1 more
    have wide : ∀ d ∈ c :: rest, d ∈ pathLetters :=
      List.forall_mem_cons.2 ⟨List.mem_append_left _ (List.mem_append_left _ known), others⟩
    refine ⟨(c :: rest) :: next :: segments, ⟨by simp, ?_, by simpa using known⟩, ?_⟩
    · exact List.forall_mem_cons.2 ⟨⟨by simp, wide⟩, List.forall_mem_cons.2 ⟨isSegment, areSegments⟩⟩
    · rw [intercalate_slash, List.flatMap_cons]
  · rintro ⟨segments, route, rfl⟩
    obtain ⟨segment, next, others, rfl⟩ : ∃ segment next others, segments = segment :: next :: others :=
      match segments, route.several with
      | segment :: next :: others, _ => ⟨segment, next, others, rfl⟩
    obtain ⟨here, isSegment, areSegments⟩ :
        IsSegment segment ∧ IsSegment next ∧ ∀ s ∈ others, IsSegment s := by
      simpa using route.isSegment
    obtain ⟨c, rest, rfl⟩ := List.exists_cons_of_ne_nil here.present
    have known : c ∈ latinLetters := route.begins _ rfl c rfl
    refine ⟨c :: rest, mem_wordOf.2 ⟨c, rest, ⟨known, (List.forall_mem_cons.1 here.listed).2⟩, rfl⟩,
      (next :: others).flatMap (.char '/' :: ·), ?_, (intercalate_slash _ _).symm⟩
    rw [RegularExpression.matches'_mul, Language.mem_mul]
    exact ⟨_, mem_segmentPattern.2 ⟨next, isSegment, rfl⟩, _, mem_rest.2 ⟨others, areSegments, rfl⟩, rfl⟩

theorem scan_iff {scan : CodePoint → Bool} (bounded : ∀ c, scan c = true → c.toNat < 128)
    (scanned : ∀ n < 128, ∀ c ∈ CodePoint.ofNat? n, scan c = true → c ∈ listed)
    (passes : ∀ c ∈ listed, scan c = true) : scan c = true ↔ c ∈ listed :=
  ⟨fun pass => scanned c.toNat (bounded c pass) c (CodePoint.ofNat?_toNat c) pass, passes c⟩

theorem isAlpha_iff : c.isAlpha = true ↔ c ∈ latinLetters := by
  refine scan_iff (fun c alpha => ?_) (by decide +kernel) (by decide)
  simp only [CodePoint.isAlpha, CodePoint.isSmall, CodePoint.isCapital, Bool.or_eq_true, Bool.and_eq_true,
    decide_eq_true_eq] at alpha
  omega

theorem isDigit_iff : c.isDigit = true ↔ c ∈ figures := by
  refine scan_iff (fun c digit => ?_) (by decide +kernel) (by decide)
  simp only [CodePoint.isDigit, Bool.and_eq_true, decide_eq_true_eq] at digit
  omega

theorem isWordChar_iff {extra : Text} :
    isWordChar extra c = true ↔ c ∈ latinLetters ++ figures ++ extra := by
  rw [isWordChar, CodePoint.isAlphanum, Bool.or_eq_true, Bool.or_eq_true, isAlpha_iff, isDigit_iff,
    List.contains_iff_mem, List.mem_append, List.mem_append]

theorem isKeyword_iff : isKeyword t = true ↔ t ∈ keywordPattern.matches' := by
  rw [keywordPattern, mem_wordOf]
  cases t with
  | nil => simp [isKeyword]
  | cons c rest => simp [isKeyword, isAlpha_iff, isWordChar_iff]

theorem isRoute_split : t ∈ relativePattern.matches' ↔ IsRoute (t.splitOn (.char '/')) := by
  rw [mem_relativePattern]
  constructor
  · rintro ⟨segments, route, rfl⟩
    have slash : CodePoint.char '/' ∉ pathLetters := by decide
    have present : segments ≠ [] := by
      rintro rfl
      exact absurd route.several (by decide)
    have split := List.splitOn_intercalate (.char '/')
      (fun segment member inside => slash ((route.isSegment segment member).listed _ inside)) present
    exact split.symm ▸ route
  · intro route
    exact ⟨_, route, List.intercalate_splitOn _⟩

theorem isRoute_iff : isPath t = true ↔ IsRoute ((withoutSlash t).splitOn (.char '/')) := by
  rw [isPath]
  generalize withoutSlash t = key
  obtain ⟨first, others, parts⟩ := List.exists_cons_of_ne_nil (List.splitOn_ne_nil (.char '/') key)
  have whole : [.char '/'].intercalate (key.splitOn (.char '/')) = key := List.intercalate_splitOn _
  rw [parts] at whole ⊢
  -- the first letter of the key is that of its first segment, unless that segment is empty
  have start (present : first ≠ []) : key.head? = first.head? := by
    rw [← whole]
    exact (congrArg List.head? (intercalate_slash first others)).trans (List.head?_append_of_ne_nil _ present)
  simp only [Bool.and_eq_true, decide_eq_true_eq, List.all_eq_true, isWordChar_iff, Option.any_eq_true,
    isAlpha_iff]
  constructor
  · rintro ⟨⟨⟨several, present⟩, begins⟩, listed⟩
    refine ⟨several, fun segment member => ⟨present segment member, listed segment member⟩, ?_⟩
    rintro _ ⟨⟩ c head
    rw [start (present first (by simp)), Option.mem_def.1 head] at begins
    simpa using begins
  · intro route
    have present := (route.isSegment first (by simp)).present
    obtain ⟨c, rest, rfl⟩ := List.exists_cons_of_ne_nil present
    refine ⟨⟨⟨route.several, fun segment member => (route.isSegment segment member).present⟩, ?_⟩,
      fun segment member => (route.isSegment segment member).listed⟩
    exact ⟨c, start present, route.begins _ rfl c rfl⟩

theorem withoutSlash_cases (t : Text) : t = withoutSlash t ∨ t = .char '/' :: withoutSlash t := by
  unfold withoutSlash
  split
  · exact .inr rfl
  · exact .inl rfl

theorem begins_of_relativePattern (written : t ∈ relativePattern.matches') :
    ∃ c rest, c ∈ latinLetters ∧ c :: rest = t := by
  rw [relativePattern, RegularExpression.matches'_mul, Language.mem_mul] at written
  obtain ⟨_, begun, others, -, rfl⟩ := written
  obtain ⟨c, rest, ⟨known, -⟩, rfl⟩ := mem_wordOf.1 begun
  exact ⟨c, rest ++ others, known, rfl⟩

theorem mem_pathPattern : t ∈ pathPattern.matches' ↔ withoutSlash t ∈ relativePattern.matches' := by
  rw [pathPattern, RegularExpression.matches'_mul, Language.mem_mul]
  constructor
  · rintro ⟨_, rfl | rfl, key, written, rfl⟩
    · -- a relative path begins with a letter, so no slash is taken from it
      obtain ⟨c, rest, known, rfl⟩ := begins_of_relativePattern written
      have slash : CodePoint.char '/' ∉ latinLetters := by decide
      rcases withoutSlash_cases (c :: rest) with same | slashed
      · exact same ▸ written
      · exact absurd ((List.cons.inj slashed).1 ▸ known) slash
    · exact written
  · intro written
    rcases withoutSlash_cases t with same | slashed
    · exact ⟨[], .inl rfl, _, written, same.symm⟩
    · exact ⟨[.char '/'], .inr rfl, _, written, slashed.symm⟩

theorem isPath_iff : isPath t = true ↔ t ∈ pathPattern.matches' := by
  rw [isRoute_iff, ← isRoute_split, mem_pathPattern]

theorem path_eq {line : Line} (path : isPath line.key = true) :
    line.path = (withoutSlash line.key).splitOn (.char '/') := by
  have route := isRoute_iff.1 path
  have kept : ((withoutSlash line.key).splitOn (.char '/')).filter (· ≠ []) =
      (withoutSlash line.key).splitOn (.char '/') :=
    List.filter_eq_self.2 fun segment member => decide_eq_true (route.isSegment segment member).present
  rw [Line.path, fields]
  rcases withoutSlash_cases line.key with same | slashed
  · conv_lhs => rw [same]
    exact kept
  · conv_lhs => rw [slashed, List.splitOn_cons_eq_if_modifyHead, if_pos (beq_self_eq_true _)]
    exact kept

theorem keys_match_patterns (t : Text) :
    (isSectionName t = true ↔ t ∈ keywordPattern.matches') ∧
      (isKeyword t = true ↔ t ∈ keywordPattern.matches') ∧
      (isPath t = true ↔ t ∈ pathPattern.matches') ∧
      ∀ line : Line, line.key = t → isPath t = true →
        2 ≤ line.path.length ∧ [.char '/'].intercalate line.path = withoutSlash t := by
  refine ⟨isKeyword_iff, isKeyword_iff, isPath_iff, ?_⟩
  rintro line rfl path
  rw [path_eq path]
  exact ⟨(isRoute_iff.1 path).several, List.intercalate_splitOn _⟩

theorem keys_match_patterns_of_volume :
    isPath "/synth/1..2/velocity" = true ∧ 2 ≤ (Line.path ⟨"/synth/1..2/velocity", "7", 1⟩).length ∧
      [.char '/'].intercalate (Line.path ⟨"/synth/1..2/velocity", "7", 1⟩) = of "synth/1..2/velocity" := by
  have path : isPath "/synth/1..2/velocity" = true := by decide
  exact ⟨path, (keys_match_patterns "/synth/1..2/velocity").2.2.2 ⟨"/synth/1..2/velocity", "7", 1⟩ rfl path⟩

end ScoreScript.Script
