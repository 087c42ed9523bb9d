import ScoreScript.Diagnostic
import ScoreScript.Phrase.Sequence

set_option autoImplicit false

/-!
# Repetitions

`*` repeats the phrase before it, and `...` repeats all phrases before it in turn until the line has
the wanted number of measures together with the phrases that follow.
-/

namespace ScoreScript.Phrase

def repeatPrevious : Text := "*"

def repeatCycle : Text := "..."

def cycle (count : Nat) (phrases : List Text) : List Text :=
  (List.range count).filterMap fun k => phrases[k % phrases.length]?

def repeatFrom (measures : Int) (line : Int) (done : List Text) :
    List Text → List Text × List Diagnostic
  | [] => (done, [])
  | phrase :: rest =>
    if name phrase = repeatPrevious then
      repeatFrom measures line (done ++ [done.getLast?.getD silence]) rest
    else if name phrase = repeatCycle then
      if done = [] then
        let (phrases, reports) := repeatFrom measures line [silence] rest
        (phrases, ⟨.syntaxError, repeatCycle, line⟩ :: reports)
      else
        let missing := (measures - rest.length - done.length).toNat
        repeatFrom measures line (done ++ cycle missing done) rest
    else repeatFrom measures line (done ++ [phrase]) rest

def expandRepetitions (measures : Int) (line : Int) (phrases : List Text) :
    List Text × List Diagnostic :=
  repeatFrom measures line [] phrases

/-- The phrases of a line, one to a measure, with sequences and repetitions put out. Blanks and then
double quotes around a phrase are dropped. -/
def ofLine (sequences : Table Text) (measures : Int) (depth : Nat) (line : Int) (t : Text) :
    List Text × List Diagnostic :=
  let (expanded, expansionReports) := expandSequences sequences depth line (split t)
  let (repeated, repetitionReports) := expandRepetitions measures line expanded
  (repeated.map fun phrase => Text.trimBoth (· = '"') (Text.trim phrase),
    expansionReports ++ repetitionReports)

end ScoreScript.Phrase
