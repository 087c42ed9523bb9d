import ScoreScript.Script.Section
import ScoreScript.Score.Basic
import ScoreScript.Text.Controller

set_option autoImplicit false

namespace ScoreScript.Score

def compositionName : Text := "composition"

structure Reading where
  score : Score := {}
  reports : List Diagnostic := []

namespace Reading

def report (r : Reading) (kind : Diagnostic.Kind) (info : Text) (line : Nat) : Reading :=
  { r with reports := r.reports ++ [⟨kind, info, line⟩] }

def update (r : Reading) (change : Score → Score) : Reading :=
  { r with score := change r.score }

end Reading

def numberIn? (low high : Int) (t : Text) : Option Int :=
  match Text.toInt? t with
  | some n => if low ≤ n ∧ n ≤ high then some n else none
  | none => none

def withoutQuotes (t : Text) : Text := Text.trimBoth (· = '"') t

def playlistOf (line : Script.Line) : List PlaylistItem :=
  ((line.items.map Text.trim).filter (· ≠ [])).map fun name => { name }

def readHeaderLine (r : Reading) (line : Script.Line) : Except Fault Reading := do
  let key := Text.lower line.key
  let value := Text.trim line.value
  if key = "playlist" then
    return r.update fun c => { c with playlist := c.playlist ++ playlistOf line }
  else if key = "bpm" then
    match numberIn? 0 255 value with
    | some bpm => return r.update fun c => { c with bpm }
    | none => return r.report .syntaxError value line.number
  else if key = "time" then
    match Grid.ofSignature? value with
    | some grid => return r.update fun c => { c with signature := value, grid }
    | none =>
      let r := r.report .unsupportedTimeSignature value line.number
      return r.update fun c => { c with signature := "4/4", grid := {} }
  else if key = "transposition" then
    match numberIn? (-7) 7 value with
    | some transposition => return r.update fun c => { c with transposition }
    | none => return r.report .invalidTransposition value line.number
  else if key = "title" then
    return r.update fun c => { c with title := withoutQuotes value }
  else if key = "by" then
    return r.update fun c => { c with author := withoutQuotes value }
  else if key = "cc" then
    let names ← Text.readControllers value
    let r := if names = [] then r.report .ccSyntaxError value line.number else r
    return r.update fun c =>
      { c with controllers := names.foldl (fun t entry => t.insertIfNew entry.1 entry.2) c.controllers }
  else if key = "info" then return r
  else return r.report .unexpectedKeyword line.key line.number

def readHeader (r : Reading) : Option Script.Section → Except Fault Reading
  | none => return r.report .missingSection compositionName 0
  | some s => s.lines.foldlM readHeaderLine r

end ScoreScript.Score
