import ScoreScript.Table
import ScoreScript.Text.Numeral

set_option autoImplicit false

namespace ScoreScript.Text

def scaleToController (x : Binary64) : Except Fault Int :=
  return Int.fdiv (← (x * 127).truncate) 10

/-- The controller value that a text shows; `0` if it shows none. -/
def toControllerValue (t : Text) : Except Fault Int :=
  let t := trim t
  if .char '.' ∈ t then
    match readDecimal? t with
    | some x => scaleToController x
    | none => .ok 0
  else .ok (toIntOrZero t)

def addController (table : Table Int) (item : Text) : Except Fault (Table Int) :=
  match fields '=' item with
  | [name, value] => return table.insert (trim name) (← toControllerValue value)
  | _ => .ok table

def readControllers (t : Text) : Except Fault (Table Int) :=
  (t.splitOn (.char ',')).foldlM addController []

end ScoreScript.Text
