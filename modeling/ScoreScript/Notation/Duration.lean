import ScoreScript.Notation.Word
import ScoreScript.Number.Rounding

set_option autoImplicit false

namespace ScoreScript.Notation

inductive Mark where
  -- A bracket that multiplies the unit of the words after it.
  | bracket (factor : Rat)
  -- A brace, which does nothing.
  | brace
  -- A dash by itself: the step before goes on.
  | tie
  -- A word that becomes a step.
  | step

def Mark.ofWord (word : Text) : Mark :=
  match word with
  | [.char '('] => .bracket (1 / 2)
  | [.char ')'] => .bracket 2
  | [.char '['] => .bracket (1 / 3)
  | [.char ']'] => .bracket 3
  | [.char '{'] | [.char '}'] => .brace
  | [.char '-'] => .tie
  | _ => .step

def unitsFrom (unit : Rat) : List Text → Rat
  | [] => 0
  | word :: rest =>
    match Mark.ofWord word with
    | .bracket factor => unitsFrom (unit * factor) rest
    | .brace => unitsFrom unit rest
    | .tie => unit + unitsFrom unit rest
    | .step => (if isDotted word then unit * (3 / 2) else unit) + unitsFrom unit rest

def unitCount (words : List Text) : Rat := unitsFrom 1 words

/-- The length of one unit when a phrase has to fill `budget` steps; `0` if it has no units. -/
def unitLength (words : List Text) (budget : Int) : Int :=
  let units := unitCount words
  if units ≤ 0 then 0 else truncate (budget / units)

def plainLength (base : Int) (unit : Rat) : Int := max 1 (truncate (base * unit))

end ScoreScript.Notation
