import ScoreScript.CommandLine.File
import ScoreScript.Proofs.Faults
import ScoreScript.Proofs.Tables
import ScoreScript.Settings

set_option autoImplicit false

namespace ScoreScript.Settings

open Fault

namespace Value

def isTable : Value → Bool
  | table _ => true
  | null | bool _ | int _ | real _ | text _ | list _ => false

def under? (value : Value) (key : Text) : Option Value :=
  match value with
  | table entries => Table.find? entries key
  | _ => none

def at? : Value → List Text → Option Value
  | value, [] => some value
  | value, key :: path => (value.under? key).bind fun entry => entry.at? path

inductive IsProper : Value → Prop
  | null : IsProper null
  | bool (value : Bool) : IsProper (bool value)
  | int (value : Int) : IsProper (int value)
  | real (value : Binary64) : IsProper (real value)
  | text (value : Text) : IsProper (text value)
  | list {items : List Value} (each : ∀ item ∈ items, IsProper item) : IsProper (list items)
  | table {entries : List (Text × Value)} (distinct : (entries.map Prod.fst).Nodup)
    (each : ∀ entry ∈ entries, IsProper entry.2) : IsProper (table entries)

variable {base user value : Value} {path : List Text}

theorem under?_eq_none (plain : value.isTable = false) (key : Text) : value.under? key = none := by
  cases value with
  | table => cases plain
  | null | bool | int | real | text | list => rfl

theorem IsProper.entry (proper : value.IsProper) {key : Text} {entry : Value}
    (found : value.under? key = some entry) : entry.IsProper := by
  cases proper with
  | table distinct each => exact each _ (Table.mem_of_find? found)
  | null | bool | int | real | text | list => cases found

theorem merge_null (value : Value) : merge null value = value := by
  cases value <;> rfl

theorem merge_of_not_table (plain : base.isTable = false) (value : Value) : merge base value = value := by
  cases value with
  | table =>
    cases base with
    | table => cases plain
    | null | bool | int | real | text | list => rfl
  | null | bool | int | real | text | list => rfl

theorem isTable_merge (base value : Value) : (merge base value).isTable = value.isTable := by
  cases value with
  | table => cases base <;> rfl
  | null | bool | int | real | text | list => rfl

theorem find?_mergeEntries {entries : List (Text × Value)} (distinct : (entries.map Prod.fst).Nodup)
    (old : Table Value) (key : Text) :
    Table.find? (mergeEntries old entries) key =
      match Table.find? entries key with
      | some value => some (merge ((old.find? key).getD null) value)
      | none => old.find? key := by
  induction entries generalizing old with
  | nil => rfl
  | cons entry rest ih =>
    obtain ⟨name, value⟩ := entry
    obtain ⟨new, distinct⟩ := List.nodup_cons.1 distinct
    rw [mergeEntries, ih distinct, Table.find?_cons, Table.find?_insert]
    by_cases same : key = name
    · subst same
      have absent : Table.find? rest key = none := by
        by_contra known
        obtain ⟨other, found⟩ := Option.ne_none_iff_exists'.1 known
        exact new (List.mem_map.2 ⟨_, Table.mem_of_find? found, rfl⟩)
      simp [absent]
    · simp [same]

theorem under?_merge (proper : user.IsProper) (isTable : user.isTable = true) (key : Text) :
    (merge base user).under? key =
      match user.under? key with
      | some value => some (merge ((base.under? key).getD null) value)
      | none => base.under? key := by
  cases proper with
  | table distinct =>
    by_cases known : base.isTable = true
    · cases base with
      | table old => exact find?_mergeEntries distinct old key
      | null | bool | int | real | text | list => cases known
    · have plain := Bool.eq_false_iff.2 known
      rw [merge_of_not_table plain, under?_eq_none plain]
      cases found : Value.under? (table _) key <;> simp [merge_null]
  | null | bool | int | real | text | list => cases isTable

/-- What a document says somewhere is found there, laid over what the base says. -/
theorem at?_merge (proper : user.IsProper) (found : user.at? path = some value) :
    (merge base user).at? path = some (merge ((base.at? path).getD null) value) := by
  induction path generalizing base user with
  | nil =>
    cases found
    rfl
  | cons key path ih =>
    obtain ⟨entry, here, below⟩ := Option.bind_eq_some_iff.1 found
    have isTable : user.isTable = true := by
      by_contra plain
      rw [under?_eq_none (Bool.eq_false_iff.2 plain)] at here
      cases here
    rw [at?, under?_merge proper isTable, here, Option.bind_some, ih (proper.entry here) below, at?]
    cases base.under? key with
    | some old => rfl
    | none => cases path <;> rfl

theorem at?_merge_of_none (proper : user.IsProper)
    (tables : ∀ way, way <+: path → way ≠ path → ∀ value ∈ user.at? way, value.isTable = true)
    (absent : user.at? path = none) : (merge base user).at? path = base.at? path := by
  induction path generalizing base user with
  | nil => cases absent
  | cons key path ih =>
    have isTable := tables [] List.nil_prefix (by simp) user rfl
    rw [at?, at?, under?_merge proper isTable]
    cases here : user.under? key with
    | none => rfl
    | some entry =>
      rw [at?, here, Option.bind_some] at absent
      have below (way : List Text) (before : way <+: path) (short : way ≠ path) :
          ∀ value ∈ entry.at? way, value.isTable = true := by
        intro value found
        refine tables (key :: way) ((List.prefix_cons_inj key).2 before) (by simpa using short) value ?_
        rw [at?, here]
        exact found
      rw [Option.bind_some, ih (proper.entry here) below absent]
      cases base.under? key with
      | some old => rfl
      | none =>
        cases path with
        | nil => cases absent
        | cons next path => rfl

end Value

namespace Lexeme

def IsProper : Lexeme → Prop
  | scalar value _ => value.IsProper
  | mark _ | longNumeral _ => True

theorem isProper_of_readReal? {negative : Bool} {t : Text} {value : Value}
    (read : readReal? negative t = some value) : value.IsProper := by
  simp only [readReal?] at read
  split at read
  · cases read
  · obtain ⟨x, -, rfl⟩ := Option.map_eq_some_iff.1 (Option.ite_none_right_eq_some.1 read).2
    exact .real _

theorem isProper_ofPlain (t : Text) (isKey : Bool) : (ofPlain t isKey).IsProper := by
  unfold ofPlain
  dsimp only
  split_ifs
  · exact .null
  · exact .bool true
  · exact .bool false
  · trivial
  · exact .int _
  · exact .int _
  · cases real : readReal? _ _ with
    | none => exact .text t
    | some value => exact isProper_of_readReal? real

theorem isProper_of_all? {t : Text} {pieces : List Lexeme} (read : all? t = some pieces) :
    ∀ piece ∈ pieces, piece.IsProper := by
  fun_induction all? t generalizing pieces with
  | case1 =>
    cases read
    exact List.forall_mem_nil _
  | case2 c rest space ih => exact ih read
  | case3 c rest _ _ ih =>
    obtain ⟨later, others, rfl⟩ := Option.map_eq_some_iff.1 read
    exact List.forall_mem_cons.2 ⟨trivial, ih others⟩
  | case4 | case6 => cases read
  | case5 _ _ _ _ _ _ ih =>
    obtain ⟨later, others, rfl⟩ := Option.map_eq_some_iff.1 read
    exact List.forall_mem_cons.2 ⟨.text _, ih others⟩
  | case7 =>
    rename_i ih
    obtain ⟨later, others, rfl⟩ := Option.map_eq_some_iff.1 read
    exact List.forall_mem_cons.2 ⟨isProper_ofPlain _ _, ih others⟩

end Lexeme

namespace Reading

theorem isProper_ofEntries {entries : List (Text × Reading)}
    (each : ∀ entry ∈ entries, entry.2.value.IsProper) : (ofEntries entries).value.IsProper := by
  let keeps (table : Table Value) : Prop :=
    (table.map Prod.fst).Nodup ∧ ∀ entry ∈ table, entry.2.IsProper
  have start : keeps [] := ⟨List.nodup_nil, List.forall_mem_nil _⟩
  have kept := List.foldlRecOn (motive := keeps) entries
    (fun table entry => Table.insert table entry.1 entry.2.value) start
    fun table whole entry member => ⟨Table.nodup_insert whole.1 _ _,
      Table.forall_insert (each entry member) _ whole.2⟩
  exact .table kept.1 kept.2

theorem isProper_ofItems {items : List Reading} (each : ∀ item ∈ items, item.value.IsProper) :
    (ofItems items).value.IsProper := by
  refine .list fun value member => ?_
  obtain ⟨item, listed, rfl⟩ := List.mem_map.1 member
  exact each item listed

def IsProper (read : Reading × List Lexeme) : Prop :=
  read.1.value.IsProper ∧ ∀ piece ∈ read.2, piece.IsProper

theorem isProper_of_read (fuel : Nat) :
    (∀ {pieces read}, (∀ piece ∈ pieces, Lexeme.IsProper piece) →
      ofLexemes? fuel pieces = some read → IsProper read) ∧
    (∀ {items pieces read}, (∀ piece ∈ pieces, Lexeme.IsProper piece) →
      (∀ item ∈ items, Value.IsProper (Reading.value item)) →
      readItems? fuel items pieces = some read → IsProper read) ∧
    (∀ {entries pieces read}, (∀ piece ∈ pieces, Lexeme.IsProper piece) →
      (∀ entry ∈ entries, Value.IsProper (Reading.value (Prod.snd entry))) →
      readEntries? fuel entries pieces = some read → IsProper read) := by
  induction fuel with
  | zero => exact ⟨nofun, nofun, nofun⟩
  | succ fuel ih =>
    obtain ⟨one, items, entries⟩ := ih
    refine ⟨fun {pieces read} whole found => ?_, fun {done pieces read} whole proper found => ?_,
      fun {done pieces read} whole proper found => ?_⟩
    · rw [ofLexemes?.eq_def] at found
      dsimp only at found
      split at found
      · cases found
        exact List.forall_mem_cons.1 whole
      · cases found
        exact ⟨.null, (List.forall_mem_cons.1 whole).2⟩
      · exact items (List.forall_mem_cons.1 whole).2 (List.forall_mem_nil _) found
      · exact entries (List.forall_mem_cons.1 whole).2 (List.forall_mem_nil _) found
      · cases found
    · rw [readItems?.eq_def] at found
      dsimp only at found
      split at found
      · cases found
        exact ⟨isProper_ofItems (by simpa using proper), (List.forall_mem_cons.1 whole).2⟩
      · have grown {item rest} (here : ofLexemes? fuel pieces = some (item, rest)) :
            (∀ other ∈ item :: done, other.value.IsProper) ∧ ∀ piece ∈ rest, piece.IsProper :=
          ⟨List.forall_mem_cons.2 ⟨(one whole here).1, proper⟩, (one whole here).2⟩
        split at found
        next here => exact items (List.forall_mem_cons.1 (grown here).2).2 (grown here).1 found
        next here =>
          cases found
          refine ⟨isProper_ofItems fun other member => ?_, (List.forall_mem_cons.1 (grown here).2).2⟩
          exact (grown here).1 other (List.mem_reverse.1 member)
        next => cases found
    · rw [readEntries?.eq_def] at found
      dsimp only at found
      split at found
      · cases found
        exact ⟨isProper_ofEntries (by simpa using proper), (List.forall_mem_cons.1 whole).2⟩
      next key rest =>
        have grown {value left} (here : ofLexemes? fuel rest = some (value, left)) :
            (∀ other ∈ (key, value) :: done, other.2.value.IsProper) ∧ ∀ piece ∈ left, piece.IsProper :=
          have read := one (List.forall_mem_cons.1 (List.forall_mem_cons.1 whole).2).2 here
          ⟨List.forall_mem_cons.2 ⟨read.1, proper⟩, read.2⟩
        split at found
        next here => exact entries (List.forall_mem_cons.1 (grown here).2).2 (grown here).1 found
        next here =>
          cases found
          refine ⟨isProper_ofEntries fun other member => ?_, (List.forall_mem_cons.1 (grown here).2).2⟩
          exact (grown here).1 other (List.mem_reverse.1 member)
        next => cases found
      · cases found

end Reading

theorem Value.isProper_ofDocument {t : Text} {value : Value} (read : ofDocument t = .ok (some value)) :
    value.IsProper := by
  unfold ofDocument at read
  extract_lets t at read
  by_cases allowed : (!t.all Lexeme.isAllowed) = true
  · rw [if_pos allowed] at read
    cases read
  · rw [if_neg allowed] at read
    cases cut : Lexeme.all? t with
    | none => simp [cut] at read
    | some pieces =>
      cases pieces with
      | nil =>
        simp only [cut, Except.ok.injEq, Option.some.injEq] at read
        exact read ▸ .null
      | cons piece rest =>
        simp only [cut] at read
        split at read
        next reading found =>
          split at read
          · cases read
            exact ((Reading.isProper_of_read _).1 (Lexeme.isProper_of_all? cut) found).1
          · cases read
        next => cases read

end ScoreScript.Settings
