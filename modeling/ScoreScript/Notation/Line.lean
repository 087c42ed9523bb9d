import ScoreScript.Notation.Duration
import ScoreScript.Phrase.Basic

set_option autoImplicit false

namespace ScoreScript.Notation

/-- A measure in the making: the measures before it, its steps, the unit of the next word and the
position where the next step starts. -/
structure Bar where
  earlier : List Measure
  steps : Measure := []
  unit : Rat := 1
  position : Int := 0
  reports : List Diagnostic := []

namespace Bar

def extendLast (steps : Measure) (length : Int) : Measure :=
  match steps.getLast? with
  | none => steps
  | some last => steps.dropLast ++ [{ last with length := last.length + length }]

def heldStep? (measures : List Measure) : Option (Measure × Step) :=
  match measures.getLast? with
  | none => none
  | some measure => measure.getLast?.map fun step => (measure.dropLast, step)

def continuation (held : Step) (length : Int) : Step :=
  { held with length := length, tiesForward := false, tiesBackward := true, messages := [] }

def addTie (b : Bar) (velocity length : Int) : Bar :=
  let b := { b with position := b.position + length }
  if b.steps ≠ [] then { b with steps := extendLast b.steps length }
  else
    match heldStep? b.earlier with
    | some (steps, held) =>
      { b with
        earlier := b.earlier.dropLast ++ [steps ++ [{ held with tiesForward := true }]]
        steps := [continuation held length] }
    | none => { b with steps := [{ length := length, velocity := velocity }] }

def reportOf (step : Step) (line : Int) : List Diagnostic :=
  match step.error with
  | none => []
  | some kind => [⟨kind, step.text, line⟩]

def addStep (b : Bar) (step : Step) (line : Int) : Bar :=
  { b with
    steps := b.steps ++ [step]
    position := b.position + step.length
    reports := b.reports ++ reportOf step line }

def addWord (ctx : Context) (chordAt : Nat → Int → Text) (line : Int) (base : Int) (b : Bar)
    (word : Text) : Bar :=
  let length := plainLength base b.unit
  match Mark.ofWord word with
  | .bracket factor => { b with unit := b.unit * factor }
  | .brace => b
  | .tie => b.addTie ctx.velocity length
  | .step => b.addStep (stepOf ctx word length (chordAt b.earlier.length b.position)) line

def measures (b : Bar) : List Measure := b.earlier ++ [b.steps]

end Bar

def barOf (ctx : Context) (chordAt : Nat → Int → Text) (line : Int) (earlier : List Measure)
    (words : List Text) : Bar :=
  words.foldl (Bar.addWord ctx chordAt line (unitLength words ctx.budget)) { earlier := earlier }

def addPhrase (ctx : Context) (chordAt : Nat → Int → Text) (line : Int)
    (done : List Measure × List Diagnostic) (phrase : Text) : List Measure × List Diagnostic :=
  match Text.words phrase with
  | [] => done
  | words =>
    let b := barOf ctx chordAt line done.1 words
    (b.measures, done.2 ++ b.reports)

/-- The measures of an instrument after one more line, and the reports on it. `chordAt` gives the
current chord by measure and position. -/
def addLine (ctx : Context) (chordAt : Nat → Int → Text) (line : Int) (measures : List Measure)
    (phrases : List Text) : List Measure × List Diagnostic :=
  phrases.foldl (addPhrase ctx chordAt line) (measures, [])

end ScoreScript.Notation
