import ScoreScript.Fault
import ScoreScript.Table
import ScoreScript.Text.Blank

set_option autoImplicit false

namespace ScoreScript

abbrev ChordTable := Table (List Text)

inductive Chord.Extent where
  -- All degrees, once.
  | whole
  -- The degree that the chord is built on.
  | root
  -- The given number of degrees, from the bottom and round again.
  | degrees (count : Nat)
deriving DecidableEq, Repr

namespace ChordTable

def ofDegrees (entries : List (Text × Text)) : ChordTable :=
  entries.map fun entry => (entry.1, Text.blankSeparated entry.2)

def inversion (name : Text) : Text × (List Text → List Text) :=
  match name with
  | .char '\'' :: base => (base, fun degrees => degrees.drop 1 ++ degrees.take 1)
  | _ =>
    if name.getLast? = some '\'' then
      (name.dropLast, fun degrees => degrees.getLast?.toList ++ degrees.dropLast)
    else (name, id)

def notes (chords : ChordTable) (name : Text) : List Text :=
  let (base, turn) := inversion name
  turn ((chords.find? base).getD [])

def knows (chords : ChordTable) (name : Text) : Bool := chords.notes name ≠ []

/-- A chord whose lowest degree is the sixth, the raised sixth or the seventh sounds an octave
lower. -/
def lowerHighBass (spelling : Text) : Text :=
  match spelling with
  | .char '6' :: _ | .char '#' :: .char '6' :: _ | .char '7' :: _ => '\'' :: spelling
  | _ => spelling

def rootDegree (name : Text) : Text :=
  (match name with
    | .char '\'' :: base => base
    | _ => name).take 1

def spell (chords : ChordTable) (name : Text) (extent : Chord.Extent) : Text :=
  let degrees := chords.notes name
  if degrees = [] then []
  else
    match extent with
    | .whole => lowerHighBass degrees.flatten
    | .root => lowerHighBass (rootDegree name)
    | .degrees 0 => []
    | .degrees count =>
      lowerHighBass ((List.range count).filterMap fun k => degrees[k % degrees.length]?).flatten

/-- The degrees of a chord in one word, by a name that someone asks for. A known chord whose name is empty
has no root. -/
def spelling (chords : ChordTable) (name : Text) (extent : Chord.Extent) : Except Fault Text :=
  if extent = .root ∧ chords.knows name ∧ rootDegree name = [] then .error .outOfRange
  else .ok (chords.spell name extent)

end ChordTable

def standardChords : ChordTable :=
  .ofDegrees <| [
    -- Triads of the scale.
    ("1M", "1 3 5"), ("2m", "2 4 6"), ("3m", "3 5 7"), ("4M", "4 6 1"), ("5M", "5 7 2"),
    ("6m", "6 1 3"), ("7d", "7 2 4"),
    -- Other major and minor triads.
    ("1m", "1 #2 5"), ("2M", "2 #4 6"), ("3M", "3 #5 7"), ("4m", "4 #5 1"), ("5m", "5 #6 2"),
    ("6M", "6 #1 3"), ("7m", "7 2 #4"), ("7M", "7 #2 #4"),
    -- Diminished triads.
    ("1d", "1 #2 #4"), ("2d", "2 4 #5"), ("3d", "3 5 #6"), ("4d", "4 #5 7"), ("5d", "5 #6 #1"),
    ("6d", "6 1 #2"),
    -- Augmented triads.
    ("1a", "1 3 #5"), ("2a", "2 #4 #6"), ("3a", "3 #5 1"), ("4a", "4 6 #1"), ("5a", "5 7 #2"),
    ("6a", "6 #1 4"), ("7a", "7 #2 5"),
    -- Sevenths of the scale.
    ("1M7", "1 3 5 7"), ("2m7", "2 4 6 1"), ("3m7", "3 5 7 2"), ("4M7", "4 6 1 3"),
    ("5D7", "5 7 2 4"), ("6m7", "6 1 3 5"), ("7d7", "7 2 4 6"),
    -- Other dominant sevenths.
    ("1D7", "1 3 5 #6"), ("2D7", "2 #4 6 1"), ("3D7", "3 #5 7 2"), ("4D7", "4 6 1 #2"),
    ("6D7", "6 #1 3 5"), ("7D7", "7 #2 #4 6"),
    -- Other major sevenths.
    ("2M7", "2 4 6 #1"), ("3M7", "3 5 7 #2"), ("5M7", "5 7 2 #4"), ("6M7", "6 1 3 #5"),
    ("7M7", "7 2 4 #6"),
    -- Other minor sevenths.
    ("1m7", "1 #2 5 #6"), ("4m7", "4 #5 1 #2"), ("5m7", "5 #6 2 4"), ("7m7", "7 2 #4 6"),
    -- Other diminished sevenths.
    ("1d7", "1 #2 #4 6"), ("2d7", "2 4 #5 7"), ("3d7", "3 5 #6 #1"), ("4d7", "4 #5 7 2"),
    ("5d7", "5 #6 #1 3"), ("6d7", "6 1 #2 #4")].map fun entry => (.of entry.1, .of entry.2)

end ScoreScript
