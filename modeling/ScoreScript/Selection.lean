import ScoreScript.Score.Basic
import ScoreScript.Settings.Value

set_option autoImplicit false

namespace ScoreScript

structure Selection where
  instruments : List (Text × Bool) := []
  playlist : List (Text × Bool) := []
deriving DecidableEq, Repr

namespace Selection

def setInstrument (s : Selection) (name : Text) (selected : Bool) : Selection :=
  { s with
    instruments := s.instruments.map fun entry =>
      if entry.1 = name then (entry.1, selected) else entry }

def setPlaylistItem (s : Selection) (index : Int) (selected : Bool) : Selection :=
  { s with
    playlist := s.playlist.mapIdx fun i entry => if i = index then (entry.1, selected) else entry }

/-- The flag of a name that stands in the place of an earlier entry. -/
def flagFor (name : Text) : Option (Text × Bool) → Bool
  | some (earlier, selected) => if earlier = name then selected else true
  | none => true

def restore : List Text → List (Text × Bool) → List (Text × Bool)
  | [], _ => []
  | name :: rest, earlier =>
    (name, flagFor name earlier.head?) :: restore rest earlier.tail

theorem map_fst_restore (names : List Text) (earlier : List (Text × Bool)) :
    (restore names earlier).map Prod.fst = names := by
  induction names generalizing earlier with
  | nil => rfl
  | cons name rest ih => simp [restore, ih]

def merge (instruments playlist : List Text) (earlier : Selection) : Selection :=
  { instruments := restore instruments earlier.instruments
    playlist := restore playlist earlier.playlist }

def ofScore (c : Score) : Selection :=
  { instruments := c.instruments.map fun i => (i.name, i.selected)
    playlist := c.playlist.map fun item => (item.name, item.selected) }

def after (c : Score) : Option Selection → Selection
  | none => ofScore c
  | some earlier => merge (c.instruments.map (·.name)) (c.playlist.map (·.name)) earlier

def apply (s : Selection) (c : Score) : Score :=
  { c with
    instruments := c.instruments.zipWith (fun i entry => { i with selected := entry.2 }) s.instruments
    playlist := c.playlist.zipWith (fun item entry => { item with selected := entry.2 }) s.playlist }

end Selection

def Score.restore (c : Score) (earlier : Option Selection) : Score :=
  (Selection.after c earlier).apply c

namespace Selection

def entryOf? : Settings.Value → Option (Text × Bool)
  | .table entries =>
    (Table.find? entries "name").map fun name =>
      (name.display, ((Table.find? entries "selected").map Settings.Value.isTrue).getD true)
  | _ => none

def entriesOf : Settings.Value → Except Fault (List (Text × Bool))
  | .list items => .ok (items.filterMap entryOf?)
  | .text _ | .table _ => .ok []
  | value => if value.isTrue then .error .notAList else .ok []

/-- The selection of a document; one that is missing, broken or no table enables everything. -/
def ofDocument (document : Option Settings.Value) : Except Fault Selection :=
  match document with
  | some (.table entries) => do
    let instruments ← entriesOf ((Table.find? entries "instruments").getD .null)
    let playlist ← entriesOf ((Table.find? entries "playlist").getD .null)
    return { instruments, playlist }
  | _ => .ok {}

def listOf (entries : List (Text × Bool)) : Settings.Value :=
  .list (entries.map fun entry =>
    .table [("name", .text entry.1), ("selected", .bool entry.2)])

def toDocument (s : Selection) : Settings.Value :=
  .table [("instruments", listOf s.instruments), ("playlist", listOf s.playlist)]

theorem entriesOf_listOf (entries : List (Text × Bool)) : entriesOf (listOf entries) = .ok entries := by
  simp only [listOf, entriesOf, List.filterMap_map, Except.ok.injEq]
  induction entries with
  | nil => rfl
  | cons entry rest ih =>
    have apart : Text.of "selected" ≠ Text.of "name" := by decide
    simp [entryOf?, Table.find?_cons, Settings.Value.display, Settings.Value.isTrue, apart] at ih ⊢
    exact ih

end Selection

end ScoreScript
