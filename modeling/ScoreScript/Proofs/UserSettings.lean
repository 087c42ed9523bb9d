import Mathlib.Data.List.Infix
import ScoreScript.Proofs.Overrides

set_option autoImplicit false

namespace ScoreScript.Settings

open Fault

def entries : List (List Text) :=
  ["ticks_per_beat"] :: ["defaults", "step_velocity"] :: ["defaults", "instrument", "endpoint"] ::
    ["defaults", "instrument", "velocity"] :: ["strum", "velocity_floor"] :: ["sequences", "max_depth"] ::
    soundDefaults.map fun entry => ["defaults", "sound", entry.1]

def tables : List (List Text) :=
  [[], ["defaults"], ["defaults", "instrument"], ["defaults", "sound"], ["strum"], ["sequences"]]

def Value.Blocks (value : Value) (way : List Text) : Prop :=
  ∃ found ∈ value.at? way, found.isTable = false

instance (value : Value) (way : List Text) : Decidable (value.Blocks way) :=
  inferInstanceAs (Decidable (∃ found ∈ value.at? way, found.isTable = false))

def Value.IsStructured (value : Value) : Prop := ∀ way ∈ tables, ¬value.Blocks way

instance (value : Value) : Decidable value.IsStructured :=
  inferInstanceAs (Decidable (∀ way ∈ tables, ¬value.Blocks way))

theorem Value.not_isStructured {value : Value} (plain : value.isTable = false) : ¬value.IsStructured :=
  fun structured => structured [] (List.mem_cons_self ..) ⟨value, rfl, plain⟩

variable {document table sub : Table Value}

def default? (defaults : List (String × Value)) (key : Text) : Option Value :=
  Table.find? (defaults.map fun entry => (Text.of entry.1, entry.2)) key

theorem find?_withEntries (table : Table Value) (defaults : List (String × Value)) (key : Text) :
    (withEntries table defaults).find? key =
      (table.find? key).or (default? defaults key) := by
  unfold withEntries default?
  induction defaults generalizing table with
  | nil => simp
  | cons entry rest ih =>
    rw [List.foldl_cons, ih, Table.find?_insertIfNew, List.map_cons, Table.find?_cons, Option.or_assoc]
    split_ifs <;> rfl

theorem at?_singleton (table : Table Value) (key : Text) :
    (Value.table table).at? [key] = table.find? key := by
  cases found : table.find? key <;> simp [Value.at?, Value.under?, found]

theorem subtable_failsJust (table : Table Value) (name : String) :
    FailsJust (subtable table name) .notATable ((Value.table table).Blocks [.of name]) := by
  unfold subtable
  rw [Value.Blocks, at?_singleton]
  cases Table.find? table name with
  | none => exact ⟨by simp, fun _ => ⟨_, rfl⟩⟩
  | some value =>
    cases value with
    | table entries => exact ⟨by simp [Value.isTable], fun _ => ⟨_, rfl⟩⟩
    | null | bool | int | real | text | list =>
      exact ⟨fun _ => rfl, fun free => absurd ⟨_, rfl, rfl⟩ free⟩

theorem at?_subtable {name : String} (found : subtable table name = .ok sub) (key : Text) (path : List Text) :
    (Value.table table).at? (.of name :: key :: path) = (Value.table sub).at? (key :: path) := by
  unfold subtable at found
  split at found
  next absent =>
    cases found
    simp [Value.at?, Value.under?, absent]
  next here =>
    cases found
    simp [Value.at?, Value.under?, here]
  next => cases found

theorem at?_withEntries (table : Table Value) {defaults : List (String × Value)} {key : Text}
    (new : default? defaults key = none) (path : List Text) :
    (Value.table (withEntries table defaults)).at? (key :: path) = (Value.table table).at? (key :: path) := by
  simp [Value.at?, Value.under?, find?_withEntries, new]

theorem blocks_subtable {name : String} (found : subtable table name = .ok sub) (key : Text) :
    (Value.table sub).Blocks [key] ↔ (Value.table table).Blocks [.of name, key] := by
  rw [Value.Blocks, Value.Blocks, at?_subtable found]

theorem blocks_withEntries (table : Table Value) {defaults : List (String × Value)} {key : Text}
    (new : default? defaults key = none) (path : List Text) :
    (Value.table (withEntries table defaults)).Blocks (key :: path) ↔
      (Value.table table).Blocks (key :: path) := by
  rw [Value.Blocks, Value.Blocks, at?_withEntries table new]

theorem not_isStructured_iff : (¬(Value.table document).IsStructured) ↔
    (Value.table document).Blocks ["defaults"] ∨
      (Value.table document).Blocks ["defaults", "instrument"] ∨
      (Value.table document).Blocks ["defaults", "sound"] ∨ (Value.table document).Blocks ["strum"] ∨
      (Value.table document).Blocks ["sequences"] := by
  have top : ¬(Value.table document).Blocks [] := by simp [Value.Blocks, Value.at?, Value.isTable]
  simp only [Value.IsStructured, tables, List.forall_mem_cons, top, List.not_mem_nil]
  tauto

theorem complete_failsJust (document : Table Value) :
    FailsJust (complete document) .notATable (¬(Value.table document).IsStructured) := by
  have top (name : String) (new : default? [("ticks_per_beat", .int 960)] (.of name) = none) :
      FailsJust (subtable (withEntries document [("ticks_per_beat", .int 960)]) name) .notATable
        ((Value.table document).Blocks [.of name]) := by
    rw [← blocks_withEntries document new []]
    exact subtable_failsJust _ name
  rw [not_isStructured_iff, ← or_false (Value.Blocks _ ["sequences"])]
  unfold complete
  -- one table after another is looked for, and whatever is found in its place is the reason to fail
  refine (top "defaults" rfl).bind fun defaults found => ?_
  have inner (name : String) (new : default? [("step_velocity", .int 80)] (.of name) = none) :
      FailsJust (subtable (withEntries defaults [("step_velocity", .int 80)]) name) .notATable
        ((Value.table document).Blocks ["defaults", .of name]) := by
    have moved : (Value.table (withEntries defaults [("step_velocity", .int 80)])).Blocks [.of name] ↔
        (Value.table document).Blocks ["defaults", .of name] := by
      rw [blocks_withEntries defaults new [], blocks_subtable found, blocks_withEntries document rfl]
    rw [← moved]
    exact subtable_failsJust _ name
  refine (inner "instrument" rfl).bind fun instrument _ => (inner "sound" rfl).bind fun sound _ => ?_
  refine (top "strum" rfl).bind fun strum _ => (top "sequences" rfl).bind fun sequences _ => ?_
  exact ⟨False.elim, fun _ => ⟨_, rfl⟩⟩

def readings (s : Settings) : List (List Text × Option Value) :=
  (["ticks_per_beat"], some s.ticksPerBeat) :: (["defaults", "step_velocity"], some s.stepVelocity) ::
    (["defaults", "instrument", "endpoint"], some s.endpoint) ::
    (["defaults", "instrument", "velocity"], some s.instrumentVelocity) ::
    (["strum", "velocity_floor"], some s.velocityFloor) :: (["sequences", "max_depth"], some s.maxDepth) ::
    soundDefaults.map fun entry => (["defaults", "sound", entry.1], s.sound.find? entry.1)

theorem at?_insert_self (table : Table Value) (key : Text) (value : Value) (path : List Text) :
    (Value.table (table.insert key value)).at? (key :: path) = value.at? path := by
  simp [Value.at?, Value.under?, Table.find?_insert]

theorem at?_insert_of_ne (table : Table Value) {name key : Text} (differ : key ≠ name) (value : Value)
    (path : List Text) :
    (Value.table (table.insert name value)).at? (key :: path) = (Value.table table).at? (key :: path) := by
  simp [Value.at?, Value.under?, Table.find?_insert, differ]

theorem at?_completed (table : Table Value) (defaults : List (String × Value)) (key : Text) :
    (Value.table (withEntries table defaults)).at? [key] =
      ((Value.table table).at? [key]).or (default? defaults key) := by
  rw [at?_singleton, find?_withEntries, at?_singleton]

theorem some_entryOr (table : Table Value) (name : String) (default : Value) :
    some (entryOr table name default) = ((Value.table table).at? [.of name]).or (some default) := by
  rw [at?_singleton, entryOr]
  cases table.find? name <;> rfl

def ShowsIn (s : Settings) (document : Table Value) (reading : List Text × Option Value) : Prop :=
  reading.2 = (Value.table s.document).at? reading.1 ∧
    reading.2 = ((Value.table document).at? reading.1).or ((Value.table packaged).at? reading.1)

theorem shows_complete {s : Settings} (done : complete document = .ok s) :
    ∀ reading ∈ s.readings, s.ShowsIn document reading := by
  obtain ⟨defaults, inDefaults, done⟩ := bind_eq_ok.1 done
  obtain ⟨instrument, inInstrument, done⟩ := bind_eq_ok.1 done
  obtain ⟨sound, inSound, done⟩ := bind_eq_ok.1 done
  obtain ⟨strum, inStrum, done⟩ := bind_eq_ok.1 done
  obtain ⟨sequences, inSequences, done⟩ := bind_eq_ok.1 done
  obtain rfl := Except.ok.inj done
  clear done
  have below {name : String} {sub : Table Value}
      (found : subtable (withEntries document [("ticks_per_beat", .int 960)]) name = .ok sub)
      (new : default? [("ticks_per_beat", .int 960)] (.of name) = none) (key : Text) (path : List Text) :
      (Value.table sub).at? (key :: path) = (Value.table document).at? (.of name :: key :: path) := by
    rw [← at?_subtable found, at?_withEntries document new]
  have inner {name : String} {sub : Table Value}
      (found : subtable (withEntries defaults [("step_velocity", .int 80)]) name = .ok sub)
      (new : default? [("step_velocity", .int 80)] (.of name) = none) (key : Text) :
      (Value.table sub).at? [key] = (Value.table document).at? ["defaults", .of name, key] := by
    rw [← at?_subtable found, at?_withEntries defaults new, below inDefaults rfl]
  -- every lookup is traced back to the document
  simp only [readings, List.forall_mem_cons, List.forall_mem_map, ShowsIn, some_entryOr, ← at?_singleton]
  simp (disch := decide) only [at?_insert_of_ne, at?_insert_self]
  simp only [at?_completed, below inDefaults rfl, below inStrum rfl, below inSequences rfl,
    inner inInstrument rfl, inner inSound rfl, Option.or_assoc]
  refine ⟨⟨rfl, rfl⟩, ⟨rfl, rfl⟩, ⟨rfl, rfl⟩, ⟨rfl, rfl⟩, ⟨rfl, rfl⟩, ⟨rfl, rfl⟩,
    fun entry known => ⟨trivial, ?_⟩⟩
  congr 1
  revert known entry
  simp only [soundDefaults, List.forall_mem_cons]
  exact ⟨rfl, rfl, rfl, rfl, rfl, List.forall_mem_nil _⟩

theorem mem_tables_above {path way : List Text} (known : path ∈ entries ++ tables)
    (before : way <+: path) (short : way ≠ path) : way ∈ tables := by
  have closed : ∀ path ∈ entries ++ tables, ∀ way ∈ path.inits, way ≠ path → way ∈ tables := by
    decide +kernel
  exact closed path known way ((List.mem_inits _ _).2 before) short

theorem packaged_isStructured : (Value.table packaged).IsStructured := by decide +kernel

variable {user : Value}

theorem Value.IsStructured.tables (structured : user.IsStructured) {path : List Text}
    (known : path ∈ Settings.entries ++ Settings.tables) :
    ∀ way, way <+: path → way ≠ path → ∀ value ∈ user.at? way, value.isTable = true :=
  fun way before short value found => Bool.of_not_eq_false fun plain =>
    structured way (mem_tables_above known before short) ⟨value, found, plain⟩

theorem isStructured_merge_iff (proper : user.IsProper) :
    (Value.merge (.table packaged) user).IsStructured ↔ user.IsStructured := by
  constructor
  · intro structured way known ⟨value, found, plain⟩
    exact structured way known ⟨_, Value.at?_merge proper found, by rw [Value.isTable_merge, plain]⟩
  · intro structured way known ⟨value, found, plain⟩
    cases said : user.at? way with
    | some entry =>
      rw [Value.at?_merge proper said] at found
      cases found
      rw [Value.isTable_merge] at plain
      exact structured way known ⟨entry, said, plain⟩
    | none =>
      rw [Value.at?_merge_of_none proper (structured.tables (List.mem_append_right _ known)) said] at found
      exact packaged_isStructured way known ⟨value, found, plain⟩

theorem at?_merge_packaged (proper : user.IsProper) (structured : user.IsStructured) {path : List Text}
    (known : path ∈ entries) : (Value.merge (.table packaged) user).at? path =
      (user.at? path).or ((Value.table packaged).at? path) := by
  have leaf : ∀ path ∈ entries, (((Value.table packaged).at? path).getD .null).isTable = false := by
    decide +kernel
  cases said : user.at? path with
  | some value =>
    rw [Value.at?_merge proper said, Value.merge_of_not_table (leaf path known), Option.some_or]
  | none =>
    have onTheWay := structured.tables (List.mem_append_left _ known)
    rw [Value.at?_merge_of_none proper onTheWay said, Option.none_or]

/-- Settings under a user's document: every entry is there, with the value that the user gave it, or else with
the packaged one, and it is what the settings show. -/
structure Follows (s : Settings) (user : Value) : Prop where
  present : ∀ path ∈ entries, ∃ value, (Value.table s.document).at? path = some value
  given : ∀ path ∈ entries, ∀ value ∈ user.at? path, (Value.table s.document).at? path = some value
  kept : ∀ path ∈ entries, user.at? path = none →
    (Value.table s.document).at? path = (Value.table packaged).at? path
  shown : ∀ reading ∈ s.readings, reading.2 = (Value.table s.document).at? reading.1

theorem follows_of_complete {s : Settings} {said : Table Value} (proper : (Value.table said).IsProper)
    (structured : (Value.table said).IsStructured)
    (done : complete (Value.mergeEntries packaged said) = .ok s) : s.Follows (.table said) := by
  have shown := shows_complete done
  have found : ∀ path ∈ entries, (Value.table s.document).at? path =
      ((Value.table said).at? path).or ((Value.table packaged).at? path) := by
    intro path known
    obtain ⟨reading, listed, rfl⟩ : ∃ reading ∈ s.readings, reading.1 = path := List.mem_map.1 known
    obtain ⟨there, value⟩ := shown reading listed
    have merged := at?_merge_packaged proper structured known
    rw [Value.merge] at merged
    rw [← there, value, merged, Option.or_assoc, Option.or_self]
  have always : ∀ path ∈ entries, ((Value.table packaged).at? path).isSome = true := by decide +kernel
  refine ⟨fun path known => ?_, fun path known value said => ?_, fun path known silent => ?_,
    fun reading listed => (shown reading listed).1⟩
  · rw [found path known]
    exact Option.isSome_iff_exists.1 (by simp [Option.isSome_or, always path known])
  · rw [found path known, said, Option.some_or]
  · rw [found path known, silent, Option.none_or]

theorem Value.isProper_documentOrEmpty {file : Option Value} (proper : ∀ value ∈ file, value.IsProper) :
    (documentOrEmpty file).IsProper := by
  have empty : (Value.table []).IsProper := .table List.nodup_nil (List.forall_mem_nil _)
  cases file with
  | none => exact empty
  | some value =>
    unfold documentOrEmpty
    dsimp only
    split
    · exact proper value rfl
    · exact empty

theorem load_packaged {said : Table Value} (file : Option Value)
    (found : documentOrEmpty file = .table said) :
    load (some (.table packaged)) file = complete (Value.mergeEntries packaged said) := by
  rw [load, found]
  rfl

theorem load_failsJust {file : Option Value} (proper : ∀ value ∈ file, value.IsProper) :
    FailsJust (load (some (.table packaged)) file) .notATable (¬(documentOrEmpty file).IsStructured) := by
  have whole := Value.isProper_documentOrEmpty proper
  cases found : documentOrEmpty file with
  | table said =>
    rw [found] at whole
    rw [load_packaged file found, ← isStructured_merge_iff whole]
    exact complete_failsJust (Value.mergeEntries packaged said)
  | null | bool | int | real | text | list =>
    rw [load, found]
    exact ⟨fun _ => rfl, fun free => absurd (Value.not_isStructured rfl) free⟩

theorem follows_of_load {file : Option Value} {s : Settings} (proper : ∀ value ∈ file, value.IsProper)
    (loaded : load (some (.table packaged)) file = .ok s) : s.Follows (documentOrEmpty file) := by
  have whole := Value.isProper_documentOrEmpty proper
  have structured : (documentOrEmpty file).IsStructured := by
    by_contra blocked
    rw [(load_failsJust proper).fails blocked] at loaded
    cases loaded
  cases found : documentOrEmpty file with
  | table said =>
    rw [load_packaged file found] at loaded
    rw [found] at whole structured
    exact follows_of_complete whole structured loaded
  | null | bool | int | real | text | list =>
    rw [found] at structured
    exact absurd structured (Value.not_isStructured rfl)

theorem isProper_of_document {content : CommandLine.FileContent} {file : Option Value}
    (read : content.document = .ok file) : ∀ value ∈ file, value.IsProper := by
  rintro value rfl
  unfold CommandLine.FileContent.document at read
  split at read
  · cases read
  · exact Value.isProper_ofDocument read

/-- A user's document, from a file or not, gives settings exactly if nothing else stands in it in the place of
a table, and they follow it. -/
theorem load_iff_isStructured {file : Option Value}
    (known : (∃ content : CommandLine.FileContent, content.document = .ok file) ∨
      ∀ value ∈ file, value.IsProper) :
    ((documentOrEmpty file).IsStructured →
      ∃ s, load (some (.table packaged)) file = .ok s ∧ s.Follows (documentOrEmpty file)) ∧
    (¬(documentOrEmpty file).IsStructured → load (some (.table packaged)) file = .error .notATable) := by
  have proper : ∀ value ∈ file, value.IsProper := known.elim (fun ⟨_, read⟩ => isProper_of_document read) id
  have just := load_failsJust proper
  refine ⟨fun structured => ?_, just.fails⟩
  obtain ⟨s, loaded⟩ := just.works (not_not.2 structured)
  exact ⟨s, loaded, follows_of_load proper loaded⟩

def softStrums : Value := .table [("strum", .table [("velocity_floor", .int 5)])]

theorem load_of_softStrums : ∃ s, load (some (.table packaged)) (some softStrums) = .ok s ∧
    s.Follows softStrums ∧ (Value.table s.document).at? ["strum", "velocity_floor"] = some (.int 5) ∧
    (Value.table s.document).at? ["sequences", "max_depth"] = some (.int 8) := by
  have inner : (Value.table [("velocity_floor", .int 5)]).IsProper :=
    .table (by decide) (List.forall_mem_singleton.2 (.int 5))
  have proper : ∀ value ∈ some softStrums, value.IsProper := by
    intro value named
    obtain rfl := Option.mem_some.1 named
    exact .table (by decide) (List.forall_mem_singleton.2 inner)
  obtain ⟨s, loaded, follows⟩ := (load_iff_isStructured (.inr proper)).1 (by decide +kernel)
  have given := follows.given ["strum", "velocity_floor"] (by decide +kernel) (.int 5) rfl
  have kept := follows.kept ["sequences", "max_depth"] (by decide +kernel) rfl
  exact ⟨s, loaded, follows, given, kept⟩

def listedSettings : CommandLine.FileContent := .bytes "[1]".toUTF8

theorem listedSettings_not_loaded : ¬∀ (content : CommandLine.FileContent) (file : Option Value),
    content.document = .ok file → ∃ s, load (some (.table packaged)) file = .ok s := by
  have refused : (listedSettings.document.toOption.any fun file =>
      !(load (some (.table packaged)) file).isOk) = true := by
    decide +kernel
  obtain ⟨file, read, refused⟩ := exists_ok_of_any refused
  intro always
  obtain ⟨s, loaded⟩ := always listedSettings file read
  rw [loaded] at refused
  cases refused

end ScoreScript.Settings
