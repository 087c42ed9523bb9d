import Mathlib.Data.List.Basic
import Mathlib.Data.List.Induction
import ScoreScript.Proofs.Continuation

set_option autoImplicit false

namespace ScoreScript

namespace Text

variable {before rest t : Text}

theorem comment_isPrefixOf_cons (c : CodePoint) (before rest : Text) :
    comment.isPrefixOf (c :: (before ++ comment ++ rest)) =
      comment.isPrefixOf (c :: (before ++ [.char '/'])) := by
  have slashes : comment = [.char '/', .char '/'] := rfl
  cases before <;> simp [slashes, List.isPrefixOf]

theorem beforeComment_eq (first : hasWord comment (before ++ [.char '/']) = false) (rest : Text) :
    beforeWord comment (before ++ comment ++ rest) = before := by
  induction before with
  | nil => rfl
  | cons c before ih =>
    rw [List.cons_append, hasWord, Bool.or_eq_false_iff] at first
    rw [List.cons_append, List.cons_append, beforeWord, comment_isPrefixOf_cons, first.1,
      if_neg Bool.false_ne_true, ih first.2]

theorem exists_eq_comment (commented : hasWord comment t = true) :
    ∃ before rest, t = before ++ comment ++ rest ∧ hasWord comment (before ++ [.char '/']) = false := by
  induction t with
  | nil => cases commented
  | cons c t ih =>
    by_cases here : comment.isPrefixOf (c :: t) = true
    · obtain ⟨rest, whole⟩ := List.isPrefixOf_iff_prefix.1 here
      exact ⟨[], rest, by simpa using whole.symm, by decide⟩
    · rw [hasWord, Bool.or_eq_true] at commented
      obtain ⟨before, rest, rfl, first⟩ := ih (commented.resolve_left here)
      refine ⟨c :: before, rest, rfl, ?_⟩
      rw [comment_isPrefixOf_cons] at here
      rw [List.cons_append, hasWord, first, Bool.or_false, Bool.eq_false_iff]
      exact here

end Text

namespace Script

open Text

theorem content_of_comment {before : Text} (first : hasWord comment (before ++ [.char '/']) = false)
    (rest : Text) : content (before ++ comment ++ rest) = trim before := by
  have blank : AllBlank (before.takeWhile isBlank) := fun _ => List.mem_takeWhile_imp
  have split : before = before.takeWhile isBlank ++ before.dropWhile isBlank :=
    List.takeWhile_append_dropWhile.symm
  generalize shown : before.dropWhile isBlank = start at split
  have head : ∀ c ∈ (start ++ comment).head?, isBlank c = false := by
    cases start with
    | nil => decide
    | cons c start => simpa [shown] using List.head?_dropWhile_not isBlank before
  have last : ∀ c ∈ (start ++ comment).getLast?, isBlank c = false := by
    rw [List.getLast?_append_of_ne_nil _ (by decide)]
    decide
  have plain : hasWord comment (start ++ [.char '/']) = false := by
    rw [← Bool.not_eq_true, hasWord_iff] at first ⊢
    refine fun inside => first (inside.trans ⟨before.takeWhile isBlank, [], ?_⟩)
    rw [List.append_nil, ← List.append_assoc, ← split]
  have cleared : trim (before ++ comment ++ rest) = start ++ comment ++ trimRight isBlank rest := by
    rw [split, List.append_assoc, List.append_assoc, trim_append_left blank, ← List.append_assoc]
    exact trim_append_of_ends (by simp [comment, Text.of]) head last rest
  rw [content, cleared, ← comment.eq_def, beforeComment_eq plain]
  conv_rhs => rw [split]
  exact (trim_append_left blank start).symm

theorem content_cases (raw : Text) :
    hasWord comment raw = false ∧ content raw = trim raw ∨
      ∃ before rest, raw = before ++ comment ++ rest ∧
        hasWord comment (before ++ [.char '/']) = false ∧ content raw = trim before := by
  cases commented : hasWord comment raw with
  | false => exact .inl ⟨rfl, content_of_plain commented⟩
  | true =>
    obtain ⟨before, rest, rfl, first⟩ := exists_eq_comment commented
    exact .inr ⟨before, rest, rfl, first, content_of_comment first rest⟩

theorem parentName?_eq_some {name parent : Text} :
    parentName? name = some parent ↔
      parent ≠ [] ∧ ∃ digit, showsDigit digit = true ∧ name = parent ++ [digit] := by
  rcases List.eq_nil_or_concat' name with rfl | ⟨front, last, rfl⟩
  · simp [parentName?]
  · simp only [parentName?, List.getLast?_concat, Option.any_some, List.dropLast_concat,
      Option.ite_none_right_eq_some, List.length_append, List.length_singleton, Option.some.injEq]
    constructor
    · rintro ⟨⟨long, digit⟩, rfl⟩
      exact ⟨List.ne_nil_of_length_pos (by omega), last, digit, rfl⟩
    · rintro ⟨present, digit, shows, same⟩
      obtain ⟨rfl, rfl⟩ := List.append_singleton_inj.1 same
      have := List.length_pos_iff.2 present
      exact ⟨⟨by omega, shows⟩, rfl⟩

inductive Entry where
  | opened (name : Text)
  -- A line of the section whose header has the given number.
  | stored (header : Nat) (key value : Text)
  | outside (text : Text)
deriving DecidableEq

def headerAbove? (above : List Text) : Option Nat :=
  ((above.zipIdx 1).filter fun line => isHeader (content line.1)).getLast?.map Prod.snd

def keyAbove (above : List Text) (header : Nat) : Text :=
  (((above.drop header).map content).filter hasColon).getLast?.elim [] keyOf

def entryOf? (above : List Text) (raw : Text) : Option Entry :=
  let t := content raw
  if t = [] then none
  else if isHeader t then some (.opened (headerName t))
  else
    match headerAbove? above with
    | none => some (.outside t)
    | some header =>
      if hasColon t then some (.stored header (keyOf t) (valueOf t))
      else if keyAbove above header = [] then some (.outside t)
      else some (.stored header (keyAbove above header) t)

def entries (raws : List Text) : List (Nat × Entry) :=
  raws.zipIdx.filterMap fun line => (entryOf? (raws.take line.2) line.1).map (line.2 + 1, ·)

namespace Entry

def heading? : Nat × Entry → Option (Nat × Text)
  | (n, .opened name) => some (n, name)
  | _ => none

def line? (header : Nat) : Nat × Entry → Option Line
  | (n, .stored h key value) => if h = header then some ⟨key, value, n⟩ else none
  | _ => none

def report? : Nat × Entry → Option Diagnostic
  | (n, .outside text) => some ⟨.unexpectedTextOutsideSection, text, n⟩
  | _ => none

end Entry

def ownLines (raws : List Text) (header : Nat) : List Line :=
  (entries raws).filterMap (Entry.line? header)

/-- The lines that a section has from the first one that is named like it but for a digit at the end. -/
def lentLines (earlier : List Section) (name : Text) : List Line :=
  ((parentName? name).bind (find? earlier)).elim [] Section.lines

def IsComposed (raws : List Text) (earlier : List Section) (s : Section) : Prop :=
  s.lines = lentLines earlier s.name ++ ownLines raws s.number

def isOutside (d : Diagnostic) : Bool := d.kind = .unexpectedTextOutsideSection

structure Accounts (raws : List Text) (sections : List Section) (reports : List Diagnostic) : Prop where
  headings : sections.map (fun s => (s.number, s.name)) = (entries raws).filterMap Entry.heading?
  homes : ∀ n header key value, (n, .stored header key value) ∈ entries raws →
    ∃ s ∈ sections, s.number = header
  lines : ∀ i s, sections[i]? = some s → IsComposed raws (sections.take i) s
  outside : reports.filter isOutside = (entries raws).filterMap Entry.report?
  reported : ∀ d ∈ reports, ∃ entry ∈ entries raws, d.line = entry.1

/-! ### Entries of one more line -/

section

variable {raws : List Text} {raw : Text} {header : Nat} {e : Entry}

theorem entries_concat (raws : List Text) (raw : Text) :
    entries (raws ++ [raw]) =
      entries raws ++ ((entryOf? raws raw).map (raws.length + 1, ·)).toList := by
  have kept : ∀ line ∈ raws.zipIdx,
      (entryOf? ((raws ++ [raw]).take line.2) line.1).map (line.2 + 1, ·) =
        (entryOf? (raws.take line.2) line.1).map (line.2 + 1, ·) := by
    intro line member
    have inside := List.snd_lt_of_mem_zipIdx member
    rw [List.take_append_of_le_length (by omega)]
  rw [entries, List.zipIdx_append, List.filterMap_append, List.filterMap_congr kept, entries]
  cases entered : entryOf? raws raw <;> simp [entered]

theorem entries_of_blank (blank : content raw = []) : entries (raws ++ [raw]) = entries raws := by
  rw [entries_concat, entryOf?, if_pos blank]
  simp

theorem entries_of_entry (entered : entryOf? raws raw = some e) :
    entries (raws ++ [raw]) = entries raws ++ [(raws.length + 1, e)] := by
  rw [entries_concat, entered]
  rfl

theorem exists_entry (raws : List Text) (present : content raw ≠ []) : ∃ e, entryOf? raws raw = some e := by
  rw [entryOf?, if_neg present]
  split
  · exact ⟨_, rfl⟩
  · split
    · exact ⟨_, rfl⟩
    · split_ifs <;> exact ⟨_, rfl⟩

theorem map_fst_entries (raws : List Text) :
    (entries raws).map Prod.fst =
      ((raws.zipIdx 1).filter fun line => content line.1 ≠ []).map Prod.snd := by
  induction raws using List.reverseRecOn with
  | nil => rfl
  | append_singleton raws raw ih =>
    rw [List.zipIdx_append, List.filter_append, List.map_append, ← ih]
    by_cases blank : content raw = []
    · simp [entries_of_blank blank, blank]
    · obtain ⟨e, entered⟩ := exists_entry raws blank
      simp [entries_of_entry entered, blank, Nat.add_comm]

theorem map_fst_entries_sublist (raws : List Text) :
    ((entries raws).map Prod.fst).Sublist (List.range' 1 raws.length) := by
  rw [map_fst_entries, ← List.zipIdx_map_snd]
  exact List.filter_sublist.map _

theorem pairwise_entries (raws : List Text) : (entries raws).Pairwise fun a b => a.1 < b.1 :=
  List.pairwise_map.1 (.sublist (map_fst_entries_sublist raws) (List.pairwise_lt_range' 1))

theorem number_le (raws : List Text) : ∀ entry ∈ entries raws, entry.1 ≤ raws.length := by
  intro entry member
  have inside := (map_fst_entries_sublist raws).subset (List.mem_map_of_mem member)
  have := List.mem_range'_1.1 inside
  omega

theorem headerAbove?_concat (raws : List Text) (raw : Text) :
    headerAbove? (raws ++ [raw]) =
      if isHeader (content raw) then some (raws.length + 1) else headerAbove? raws := by
  rw [headerAbove?, List.zipIdx_append, List.filter_append]
  split
  next header => simp [header, Nat.add_comm]
  next plain => simp [plain, headerAbove?]

theorem keyAbove_concat (raw : Text) (above : header ≤ raws.length) :
    keyAbove (raws ++ [raw]) header =
      if hasColon (content raw) then keyOf (content raw) else keyAbove raws header := by
  rw [keyAbove, List.drop_append_of_le_length above, List.map_append, List.filter_append]
  split
  next colon => simp [colon]
  next colonless => simp [colonless, keyAbove]

theorem keyAbove_of_le (below : raws.length ≤ header) : keyAbove raws header = [] := by
  rw [keyAbove, List.drop_eq_nil_of_le below]
  rfl

theorem ownLines_of_blank (blank : content raw = []) : ownLines (raws ++ [raw]) header = ownLines raws header := by
  rw [ownLines, entries_of_blank blank, ownLines]

theorem ownLines_of_entry (entered : entryOf? raws raw = some e) :
    ownLines (raws ++ [raw]) header =
      ownLines raws header ++ (Entry.line? header (raws.length + 1, e)).toList := by
  rw [ownLines, entries_of_entry entered, List.filterMap_append, ownLines]
  cases made : Entry.line? header (raws.length + 1, e) <;> simp [made]

theorem entryOf?_of_header (header : isHeader (content raw) = true) :
    entryOf? raws raw = some (.opened (headerName (content raw))) := by
  have present : content raw ≠ [] := by
    rintro blank
    rw [blank] at header
    cases header
  rw [entryOf?, if_neg present, if_pos header]

end

theorem Entry.number_of_line? {header : Nat} {entry : Nat × Entry} {l : Line}
    (made : line? header entry = some l) : l.number = entry.1 := by
  obtain ⟨n, _ | _ | _⟩ := entry
  · cases made
  · rw [line?, Option.ite_none_right_eq_some] at made
    rw [← Option.some.inj made.2]
  · cases made

theorem pairwise_ownLines (raws : List Text) (header : Nat) :
    (ownLines raws header).Pairwise fun l next => l.number < next.number := by
  refine (pairwise_entries raws).filterMap _ fun a b below l made next made' => ?_
  rwa [Entry.number_of_line? made, Entry.number_of_line? made']

theorem forall_getElem?_concat {α : Type} {P : List α → α → Prop} {row : List α} {last : α} :
    (∀ i x, (row ++ [last])[i]? = some x → P ((row ++ [last]).take i) x) ↔
      (∀ i x, row[i]? = some x → P (row.take i) x) ∧ P row last := by
  constructor
  · intro all
    refine ⟨fun i x found => ?_, by simpa using all row.length last⟩
    have inside := (List.getElem?_eq_some_iff.1 found).1
    have there := all i x (by rw [List.getElem?_append_left inside, found])
    rwa [List.take_append_of_le_length (Nat.le_of_lt inside)] at there
  · intro ⟨earlier, here⟩ i x found
    rcases Nat.lt_trichotomy i row.length with inside | rfl | beyond
    · rw [List.getElem?_append_left inside] at found
      rw [List.take_append_of_le_length (Nat.le_of_lt inside)]
      exact earlier i x found
    · rw [List.getElem?_concat_length] at found
      cases found
      simpa using here
    · rw [List.getElem?_eq_none (by simp; omega)] at found
      cases found

/-! ### Accounts -/

namespace Accounts

variable {raws : List Text} {raw : Text} {sections earlier : List Section} {reports : List Diagnostic}
  {s : Section} {e : Entry}

theorem number_mem (accounts : Accounts raws sections reports) (member : s ∈ sections) :
    ∃ entry ∈ entries raws, s.number = entry.1 := by
  have listed : (s.number, s.name) ∈ sections.map fun s => (s.number, s.name) := List.mem_map_of_mem member
  rw [accounts.headings] at listed
  obtain ⟨⟨n, e⟩, entry, heading⟩ := List.mem_filterMap.1 listed
  cases e with
  | opened name =>
    cases heading
    exact ⟨_, entry, rfl⟩
  | stored | outside => cases heading

theorem number_le (accounts : Accounts raws sections reports) (member : s ∈ sections) :
    s.number ≤ raws.length := by
  obtain ⟨entry, inEntries, same⟩ := accounts.number_mem member
  rw [same]
  exact Script.number_le raws entry inEntries

theorem ascending (accounts : Accounts raws sections reports) :
    sections.Pairwise fun s next => s.number < next.number := by
  have headings : ((entries raws).filterMap Entry.heading?).Pairwise fun a b => a.1 < b.1 := by
    refine (pairwise_entries raws).filterMap _ fun a b below heading made heading' made' => ?_
    obtain ⟨n, _ | _ | _⟩ := a <;> cases made
    obtain ⟨n', _ | _ | _⟩ := b <;> cases made'
    exact below
  rwa [← accounts.headings, List.pairwise_map] at headings

theorem remarks (accounts : Accounts raws sections reports) {more : List Diagnostic}
    (other : ∀ d ∈ more, isOutside d = false ∧ ∃ entry ∈ entries raws, d.line = entry.1) :
    Accounts raws sections (reports ++ more) where
  headings := accounts.headings
  homes := accounts.homes
  lines := accounts.lines
  outside := by
    have none : more.filter isOutside = [] := List.filter_eq_nil_iff.2 fun d member => by simp [other d member]
    rw [List.filter_append, accounts.outside, none, List.append_nil]
  reported := List.forall_mem_append.2 ⟨accounts.reported, fun d member => (other d member).2⟩

theorem blank (accounts : Accounts raws sections reports) (blank : content raw = []) :
    Accounts (raws ++ [raw]) sections reports where
  headings := by rw [entries_of_blank blank, accounts.headings]
  homes := by
    rw [entries_of_blank blank]
    exact accounts.homes
  lines i s found := by rw [IsComposed, ownLines_of_blank blank, accounts.lines i s found]
  outside := by rw [entries_of_blank blank, accounts.outside]
  reported := by
    rw [entries_of_blank blank]
    exact accounts.reported

theorem reported_entry (accounts : Accounts raws sections reports) (entered : entryOf? raws raw = some e) :
    ∀ d ∈ reports, ∃ entry ∈ entries (raws ++ [raw]), d.line = entry.1 := by
  intro d member
  obtain ⟨entry, inEntries, same⟩ := accounts.reported d member
  rw [entries_of_entry entered]
  exact ⟨entry, List.mem_append_left _ inEntries, same⟩

theorem outsideLine (accounts : Accounts raws sections reports) {text : Text}
    (entered : entryOf? raws raw = some (.outside text)) :
    Accounts (raws ++ [raw]) sections
      (reports ++ [⟨.unexpectedTextOutsideSection, text, (raws.length + 1 : Nat)⟩]) where
  headings := by
    rw [entries_of_entry entered, List.filterMap_append, accounts.headings]
    simp [Entry.heading?]
  homes n header key value member := by
    rw [entries_of_entry entered, List.mem_append] at member
    exact accounts.homes n header key value (member.resolve_right (by simp))
  lines i s found := by
    rw [IsComposed, ownLines_of_entry entered, accounts.lines i s found]
    simp [Entry.line?]
  outside := by
    rw [entries_of_entry entered, List.filterMap_append, List.filter_append, accounts.outside]
    rfl
  reported := by
    refine List.forall_mem_append.2 ⟨accounts.reported_entry entered, List.forall_mem_singleton.2 ?_⟩
    rw [entries_of_entry entered]
    exact ⟨_, List.mem_append_right _ List.mem_cons_self, rfl⟩

theorem openSection (accounts : Accounts raws sections reports) {name : Text}
    (entered : entryOf? raws raw = some (.opened name)) :
    Accounts (raws ++ [raw]) (sections ++ [⟨name, raws.length + 1, lentLines sections name⟩]) reports where
  headings := by
    rw [entries_of_entry entered, List.filterMap_append, ← accounts.headings, List.map_append]
    rfl
  homes n header key value member := by
    rw [entries_of_entry entered, List.mem_append] at member
    obtain ⟨s, inSections, same⟩ := accounts.homes n header key value (member.resolve_right (by simp))
    exact ⟨s, List.mem_append_left _ inSections, same⟩
  lines := by
    have kept (header : Nat) : ownLines (raws ++ [raw]) header = ownLines raws header := by
      rw [ownLines_of_entry entered]
      simp [Entry.line?]
    refine forall_getElem?_concat.2 ⟨fun i s found => ?_, ?_⟩
    · rw [IsComposed, kept, accounts.lines i s found]
    · -- a line stands in a section whose header is above it
      have new : ownLines raws (raws.length + 1) = [] := by
        refine List.filterMap_eq_nil_iff.2 fun entry member => ?_
        obtain ⟨n, _ | ⟨header, key, value⟩ | _⟩ := entry
        · rfl
        · obtain ⟨s, inSections, same⟩ := accounts.homes n header key value member
          have := accounts.number_le inSections
          rw [Entry.line?, if_neg (by omega)]
        · rfl
      rw [IsComposed, kept, new, List.append_nil]
  outside := by
    rw [entries_of_entry entered, List.filterMap_append, accounts.outside]
    simp [Entry.report?]
  reported := accounts.reported_entry entered

theorem enter (accounts : Accounts raws (earlier ++ [s]) reports) {key value : Text}
    (entered : entryOf? raws raw = some (.stored s.number key value)) :
    Accounts (raws ++ [raw])
      (earlier ++ [{ s with lines := s.lines ++ [⟨key, value, raws.length + 1⟩] }]) reports where
  headings := by
    rw [entries_of_entry entered, List.filterMap_append, ← accounts.headings]
    simp [Entry.heading?]
  homes n header key value member := by
    rw [entries_of_entry entered, List.mem_append] at member
    rcases member with old | new
    · obtain ⟨t, inSections, same⟩ := accounts.homes n header key value old
      rcases List.mem_append.1 inSections with before | last
      · exact ⟨t, List.mem_append_left _ before, same⟩
      · rw [List.mem_singleton.1 last] at same
        exact ⟨_, List.mem_append_right _ List.mem_cons_self, same⟩
    · simp only [List.mem_singleton, Prod.mk.injEq, Entry.stored.injEq] at new
      exact ⟨_, List.mem_append_right _ List.mem_cons_self, new.2.1.symm⟩
  lines := by
    obtain ⟨before, last⟩ := forall_getElem?_concat.1 accounts.lines
    refine forall_getElem?_concat.2 ⟨fun i t found => ?_, ?_⟩
    · have differ : s.number ≠ t.number := by
        have below := (List.pairwise_append.1 accounts.ascending).2.2 t (List.mem_of_getElem? found) s (by simp)
        omega
      rw [IsComposed, before i t found, ownLines_of_entry entered, Entry.line?, if_neg differ]
      simp
    · rw [IsComposed, ownLines_of_entry entered, Entry.line?, if_pos rfl, last]
      simp
  outside := by
    rw [entries_of_entry entered, List.filterMap_append, accounts.outside]
    simp [Entry.report?]
  reported := accounts.reported_entry entered

end Accounts

namespace Reading

def sections (r : Reading) : List Section := r.closed ++ r.current.toList

structure Tracks (raws : List Text) (r : Reading) : Prop where
  accounts : Accounts raws r.sections r.reports
  header : r.current.map Section.number = headerAbove? raws
  key : ∀ s, r.current = some s → r.key = keyAbove raws s.number

variable {raws : List Text} {raw : Text} {r : Reading} {s : Section}

theorem Tracks.number_le (tracks : r.Tracks raws) (opened : r.current = some s) : s.number ≤ raws.length :=
  tracks.accounts.number_le (by simp [sections, opened])

theorem Tracks.header_of_plain (tracks : r.Tracks raws) (plain : isHeader (content raw) = false) :
    r.current.map Section.number = headerAbove? (raws ++ [raw]) := by
  rw [headerAbove?_concat, plain, tracks.header]
  rfl

theorem Tracks.blank (tracks : r.Tracks raws) (blank : content raw = []) : r.Tracks (raws ++ [raw]) where
  accounts := tracks.accounts.blank blank
  header := tracks.header_of_plain (by rw [blank]; rfl)
  key s opened := by
    rw [keyAbove_concat raw (tracks.number_le opened), blank, tracks.key s opened]
    rfl

theorem Tracks.close (tracks : r.Tracks raws) : Accounts raws r.close.closed r.close.reports := by
  rw [closed_close, reports_close]
  refine tracks.accounts.remarks fun d member => ?_
  obtain ⟨s, opened, made⟩ := List.mem_flatMap.1 member
  obtain ⟨entry, inEntries, same⟩ := tracks.accounts.number_mem (List.mem_append_right _ opened)
  unfold nameReports at made
  split at made
  · cases made
  · rw [List.mem_singleton.1 made]
    exact ⟨rfl, entry, inEntries, by rw [same]⟩

theorem inherited_eq (r : Reading) (name : Text) : r.inherited name = lentLines r.closed name := by
  unfold inherited lentLines
  cases (parentName? name).bind (find? r.closed) <;> rfl

theorem Tracks.openSection (tracks : r.Tracks raws) (header : isHeader (content raw) = true) :
    (r.openSection (headerName (content raw)) (raws.length + 1)).Tracks (raws ++ [raw]) where
  accounts := by
    have opened := tracks.close.openSection (entryOf?_of_header header)
    rwa [← inherited_eq] at opened
  header := by
    rw [headerAbove?_concat, if_pos header]
    rfl
  key s opened := by
    cases opened
    rw [keyAbove_of_le (by simp)]
    rfl

theorem Tracks.report (tracks : r.Tracks raws) {text : Text}
    (entered : entryOf? raws raw = some (.outside text)) (plain : isHeader (content raw) = false)
    (colonless : ∀ s, r.current = some s → hasColon (content raw) = false) :
    (r.report .unexpectedTextOutsideSection text (raws.length + 1)).Tracks (raws ++ [raw]) where
  accounts := tracks.accounts.outsideLine entered
  header := tracks.header_of_plain plain
  key s opened := by
    have opened : r.current = some s := opened
    rw [keyAbove_concat raw (tracks.number_le opened), colonless s opened]
    exact tracks.key s opened

theorem Tracks.enter (tracks : r.Tracks raws) (opened : r.current = some s) {key value : Text}
    (entered : entryOf? raws raw = some (.stored s.number key value))
    (plain : isHeader (content raw) = false) (last : keyAbove (raws ++ [raw]) s.number = key) :
    (r.enter s ⟨key, value, raws.length + 1⟩).Tracks (raws ++ [raw]) where
  accounts := by
    have accounts := tracks.accounts
    rw [sections, opened] at accounts
    rw [sections, closed_enter, current_enter, reports_enter]
    refine (accounts.enter entered).remarks fun d member => ?_
    split at member
    · cases member
    · rw [List.mem_singleton.1 member, entries_of_entry entered]
      exact ⟨rfl, _, List.mem_append_right _ List.mem_cons_self, rfl⟩
  header := by
    rw [current_enter, ← tracks.header_of_plain plain, opened]
    rfl
  key t found := by
    rw [current_enter] at found
    cases found
    rw [key_enter, last]

theorem Tracks.line (tracks : r.Tracks raws) (raw : Text) :
    (r.line raw (raws.length + 1)).Tracks (raws ++ [raw]) := by
  by_cases blank : content raw = []
  · rw [line_of_blank _ blank]
    exact tracks.blank blank
  cases header : isHeader (content raw) with
  | true =>
    rw [line_of_header _ header]
    exact tracks.openSection header
  | false =>
    have above := tracks.header
    have entered : entryOf? raws raw =
        match headerAbove? raws with
        | none => some (.outside (content raw))
        | some header =>
          if hasColon (content raw) then some (.stored header (keyOf (content raw)) (valueOf (content raw)))
          else if keyAbove raws header = [] then some (.outside (content raw))
          else some (.stored header (keyAbove raws header) (content raw)) := by
      simp [entryOf?, blank, header]
    rw [← above] at entered
    cases opened : r.current with
    | none =>
      rw [opened] at entered
      rw [line_of_outside _ blank header opened]
      exact tracks.report entered header (by simp [opened])
    | some s =>
      rw [opened, Option.map_some] at entered
      dsimp only at entered
      have last := keyAbove_concat raw (tracks.number_le opened)
      cases colon : hasColon (content raw) with
      | true =>
        rw [colon, if_pos rfl] at entered last
        rw [line_of_pair _ header colon opened]
        exact tracks.enter opened entered header last
      | false =>
        rw [colon, if_neg Bool.false_ne_true] at entered last
        rw [line_of_plain _ blank header colon opened, tracks.key s opened]
        split_ifs with keyless
        · rw [if_pos keyless] at entered
          exact tracks.report entered header fun _ _ => colon
        · rw [if_neg keyless] at entered
          exact tracks.enter opened entered header last

theorem tracks_lines (raws : List Text) : (Reading.lines {} 1 raws).Tracks raws := by
  induction raws using List.reverseRecOn with
  | nil =>
    exact ⟨⟨rfl, nofun, nofun, rfl, nofun⟩, rfl, nofun⟩
  | append_singleton raws raw ih =>
    rw [lines_append, Nat.add_comm]
    exact ih.line raw

end Reading

/-- Every line of a text that is not blank is entered once, and the entries say which sections the text has,
which lines stand in each of them, and which text is reported to stand outside. -/
theorem lines_accounted_once (text : Text) :
    let raws := text.splitOn (.char '\n')
    (entries raws).map Prod.fst =
        ((raws.zipIdx 1).filter fun line => content line.1 ≠ []).map Prod.snd ∧
      (∀ header, (ownLines raws header).Pairwise fun l next => l.number < next.number) ∧
      Accounts raws (parse text).1 (parse text).2 :=
  ⟨map_fst_entries _, pairwise_ownLines _, (Reading.tracks_lines _).close⟩

example : entries ["lost", "[verse]", "s: 1: 2 // twice", "", "3 4", ": 5", "6"] =
    [(1, .outside "lost"), (2, .opened "verse"), (3, .stored 2 "s" "1: 2"), (5, .stored 2 "s" "3 4"),
      (6, .stored 2 "" "5"), (7, .outside "6")] := by
  decide +kernel

end Script

end ScoreScript
