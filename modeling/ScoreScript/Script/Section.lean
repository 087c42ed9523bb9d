import ScoreScript.Diagnostic
import ScoreScript.Script.Key
import ScoreScript.Fault
import ScoreScript.Text.Blank

set_option autoImplicit false

/-!
# Sections of a script

A script is a list of sections. A header `[name]` opens a section, `key: value` enters a line into
it, a line without a colon goes on under the last key, and `//` starts a comment. A section whose
name ends in a digit starts with the lines of the section without that digit.
-/

namespace ScoreScript.Script

structure Line where
  key : Text
  value : Text
  number : Nat
deriving DecidableEq, Repr

namespace Line

def path (line : Line) : List Text := Text.fields '/' line.key

def values (separator : Text) (line : Line) : Except Fault (List Text) :=
  if separator = [] then .error .emptySeparator
  else .ok ((Text.splitOnWord separator line.value).filter (· ≠ []))

def items (line : Line) : List Text := Text.fields ',' line.value

end Line

structure Section where
  name : Text
  number : Nat
  lines : List Line := []
deriving DecidableEq, Repr

namespace Section

def numberOf (s : Section) (key : Text) : Nat :=
  ((s.lines.find? (·.key = key)).map Line.number).getD 0

def moveFirst (s : Section) (key : Text) : Section :=
  { s with lines := s.lines.filter (·.key = key) ++ s.lines.filter (·.key ≠ key) }

end Section

def find? (sections : List Section) (name : Text) : Option Section :=
  sections.find? (·.name = name)

inductive Shape where
  | blank
  | header (name : Text)
  | pair (key value : Text)
  | plain
deriving DecidableEq, Repr

def content (raw : Text) : Text :=
  Text.trim (Text.beforeWord "//" (Text.trim raw))

def bracketed? (t : Text) : Option Text :=
  match t with
  | .char '[' :: rest => if rest.getLast? = some ']' then some rest.dropLast else none
  | _ => none

def shapeOf (t : Text) : Shape :=
  match bracketed? t with
  | some inner => .header (Text.trim inner)
  | none =>
    match Text.cut ':' t with
    | (key, some value) => .pair (Text.trim key) (Text.trim value)
    | (_, none) => if t = [] then .blank else .plain

structure Reading where
  closed : List Section := []
  current : Option Section := none
  key : Text := []
  reports : List Diagnostic := []
deriving DecidableEq, Repr

namespace Reading

def report (r : Reading) (kind : Diagnostic.Kind) (info : Text) (line : Nat) : Reading :=
  { r with reports := r.reports ++ [⟨kind, info, line⟩] }

def close (r : Reading) : Reading :=
  match r.current with
  | none => r
  | some s =>
    let r := { r with closed := r.closed ++ [s], current := none }
    if isSectionName s.name then r else r.report .invalidSectionName s.name s.number

def inherited (r : Reading) (name : Text) : List Line :=
  match (parentName? name).bind (find? r.closed) with
  | none => []
  | some parent => parent.lines

def openSection (r : Reading) (name : Text) (number : Nat) : Reading :=
  let r := r.close
  { r with current := some ⟨name, number, r.inherited name⟩, key := [] }

def enter (r : Reading) (s : Section) (line : Line) : Reading :=
  let r := { r with current := some { s with lines := s.lines ++ [line] }, key := line.key }
  if isKey line.key then r else r.report .invalidKey line.key line.number

def line (r : Reading) (raw : Text) (number : Nat) : Reading :=
  let t := content raw
  match shapeOf t, r.current with
  | .blank, _ => r
  | .header name, _ => r.openSection name number
  | .pair key value, some s => r.enter s ⟨key, value, number⟩
  | .plain, some s =>
    if r.key = [] then r.report .unexpectedTextOutsideSection t number
    else r.enter s ⟨r.key, t, number⟩
  | .pair _ _, none | .plain, none => r.report .unexpectedTextOutsideSection t number

def lines (r : Reading) (number : Nat) : List Text → Reading
  | [] => r
  | raw :: rest => (r.line raw number).lines (number + 1) rest

end Reading

def parse (text : Text) : List Section × List Diagnostic :=
  let r := (Reading.lines {} 1 (text.splitOn (.char '\n'))).close
  (r.closed, r.reports)

end ScoreScript.Script
