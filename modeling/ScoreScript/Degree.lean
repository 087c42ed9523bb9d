import ScoreScript.Text.Basic

set_option autoImplicit false

namespace ScoreScript.Degree

def octave : List Text := ["1", "#1", "2", "#2", "3", "4", "#4", "5", "#5", "6", "#6", "7"]

/-- A degree of the octave below: a quote stands before the digit. -/
def lowered : Text → Text
  | .char '#' :: digit => "#'" ++ digit
  | digit => '\'' :: digit

/-- A degree of the octave above: a quote stands after the digit. -/
def raised (degree : Text) : Text := degree ++ "'"

def all : List Text :=
  octave.map lowered ++ octave ++ octave.map raised

def index? (degree : Text) : Option Nat := all.idxOf? degree

def octavePlaces : List Int := [0, 0, 1, 1, 2, 3, 3, 4, 4, 5, 5, 6]

def staffPlace (index : Nat) : Int :=
  7 * (index / 12 : Nat) - 4 + (octavePlaces[index % 12]?).getD 0

def lowestPlace : Int := 0

def highestPlace : Int := 15

def displayed : List String :=
  ["1", "♯1", "2", "♯2", "3", "4", "♯4", "5", "♯5", "6", "♯6", "7"]

def display (midi : Int) : Text := (displayed[(midi % 12).toNat]?).getD ""

end ScoreScript.Degree
