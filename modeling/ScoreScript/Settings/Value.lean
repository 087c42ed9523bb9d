import ScoreScript.Number.Shortest
import ScoreScript.Table
import ScoreScript.Text.Numeral

set_option autoImplicit false

namespace ScoreScript.Settings

inductive Value where
  | null
  | bool (value : Bool)
  | int (value : Int)
  | real (value : Binary64)
  | text (value : Text)
  | list (items : List Value)
  | table (entries : List (Text × Value))

namespace Value

instance : Inhabited Value := ⟨null⟩

def isTrue : Value → Bool
  | null => false
  | bool value => value
  | int value => value ≠ 0
  | real value => !value.isZero
  | text value => value ≠ []
  | list items => !items.isEmpty
  | table entries => !entries.isEmpty

/-- The value as a whole number: truth values count as one and zero, numbers lose their fraction, and
texts are read. -/
def toInt : Value → Except Fault Int
  | int value => .ok value
  | bool value => .ok (if value then 1 else 0)
  | real value => value.truncate
  | text value => Text.readInt value
  | null | list _ | table _ => .error .notNumeric

mutual

def quoted : Value → Text
  | null => "None"
  | bool value => if value then "True" else "False"
  | int value => Text.ofInt value
  | real value => value.display
  | text value => Text.quote value
  | list items => "[" ++ quotedItems items ++ "]"
  | table entries => "\x7b" ++ quotedEntries entries ++ "\x7d"

def quotedItems : List Value → Text
  | [] => []
  | [item] => quoted item
  | item :: rest => quoted item ++ ", " ++ quotedItems rest

def quotedEntries : List (Text × Value) → Text
  | [] => []
  | [(key, value)] => Text.quote key ++ ": " ++ quoted value
  | (key, value) :: rest =>
    Text.quote key ++ ": " ++ quoted value ++ ", " ++ quotedEntries rest

end

def display : Value → Text
  | text value => value
  | value => quoted value

mutual

/-- The value that takes the place of `base`: tables are merged, all else is replaced. -/
def merge (base : Value) : Value → Value
  | table entries =>
    match base with
    | table old => table (mergeEntries old entries)
    | _ => table entries
  | value => value

def mergeEntries (old : Table Value) : List (Text × Value) → Table Value
  | [] => old
  | (key, value) :: rest =>
    mergeEntries (old.insert key (merge ((old.find? key).getD null) value)) rest

end

end Value

end ScoreScript.Settings
