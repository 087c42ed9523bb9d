import ScoreScript.Diagnostic
import ScoreScript.Phrase.Basic
import ScoreScript.Table
import ScoreScript.Text.Word

set_option autoImplicit false

/-!
# Sequences

A phrase that names a sequence stands for the phrases of the sequence's body, with the arguments of
the call put in place of `arg(0)`, `arg(1)` and so on, and their text in place of `args`. Bodies may
call sequences in turn; what is still a call after the last pass becomes silence.
-/

namespace ScoreScript.Phrase

def placeholder (index : Nat) : Text :=
  "arg(" ++ Text.digits 10 index ++ ")"

def substituteFrom (index : Nat) : List Text → Text → Text
  | [], body => body
  | argument :: rest, body =>
    substituteFrom (index + 1) rest (Text.replaceAll (placeholder index) argument body)

def argumentText? (phrase : Text) : Option Text :=
  match (Text.cut '(' phrase).2 with
  | none => none
  | some rest =>
    let rest := Text.trim rest
    if rest.getLast? = some ')' then some rest.dropLast else none

def substitute (phrase body : Text) : Text :=
  let arguments := ((Text.readCall? phrase).map Prod.snd).getD []
  let body := substituteFrom 0 arguments body
  match argumentText? phrase with
  | none => body
  | some inner => Text.replaceAll "args" inner body

def isCall (sequences : Table Text) (phrase : Text) : Bool := sequences.contains (name phrase)

def expand (sequences : Table Text) (phrase : Text) : List Text :=
  match sequences.find? (name phrase) with
  | none => [phrase]
  | some body => split (substitute phrase body)

def expandPasses (sequences : Table Text) : Nat → List Text → List Text
  | 0, phrases => phrases
  | depth + 1, phrases =>
    if phrases.any (isCall sequences) then
      expandPasses sequences depth (phrases.flatMap (expand sequences))
    else phrases

/-- Expands all calls; a call left after the last pass is reported and becomes silence. -/
def expandSequences (sequences : Table Text) (depth : Nat) (line : Int) (phrases : List Text) :
    List Text × List Diagnostic :=
  let expanded := expandPasses sequences depth phrases
  match expanded.find? (isCall sequences) with
  | none => (expanded, [])
  | some call =>
    (expanded.map fun phrase => if isCall sequences phrase then silence else phrase,
      [⟨.syntaxError, name call, line⟩])

end ScoreScript.Phrase
