import ScoreScript.Chord
import ScoreScript.Score.Basic
import ScoreScript.Text.Numeral
import ScoreScript.Text.Word

set_option autoImplicit false

namespace ScoreScript.Notation

structure Context where
  grid : Grid := {}
  transposition : Int := 0
  octave : Int := 0
  velocity : Int := 80
  category : Category := .synth
  literals : Table Int := []
  samples : Table Sample := []
  -- The ornaments by name; a name may stand for the absence of an ornament.
  ornaments : Table (Option Ornament) := []
  chords : ChordTable := standardChords

def Context.budget (ctx : Context) : Int := ctx.grid.stepsPerMeasure

inductive Part where
  -- A pitch that the script has named.
  | literal (name : Text) (pitch : Int)
  -- A sample that the script has named.
  | sample (name : Text)
  -- An ornament for the step, or none any more.
  | ornament (ornament : Option Ornament)
  -- Letters of drum hits.
  | drums (letters : Text)
  -- A text to display, which should be the name of a chord or not.
  | text (text : Text) (isChord : Bool)
  -- Scale degrees.
  | degrees (word : Text)
  | invalid (kind : Diagnostic.Kind) (text : Text)
deriving DecidableEq, Repr

def chordCall : Text := "chord("

def requestedDegrees? (part : Text) : Option Nat :=
  match Text.readCall? part with
  | some (_, [count]) =>
    let n := Text.toIntOrZero count
    if 0 < n then some n.toNat else none
  | _ => none

def chordRequest? (part : Text) : Option (Option Chord.Extent) :=
  if part = "chord" then some (some .whole)
  else if part = "root" then some (some .root)
  else if chordCall.isPrefixOf part && part.getLast? = some ')' then
    some ((requestedDegrees? part).map .degrees)
  else none

def Part.ofRequest (chords : ChordTable) (part chord : Text) : Option Chord.Extent → Part
  | none => .invalid .syntaxError part
  | some extent =>
    let word := if chord = [] then [] else chords.spell chord extent
    if word = [] then .invalid .invalidChord (if chord = [] then part else chord)
    else .degrees word

def Part.ofDegrees (chords : ChordTable) (part : Text) : Part :=
  let word := chords.spell part .whole
  .degrees (if word = [] then part else word)

def Part.ofCategory (ctx : Context) (part chord : Text) : Part :=
  match ctx.category with
  | .drum | .sample => .drums part
  | .text => .text part false
  | .chord => .text part true
  | .synth =>
    match chordRequest? part with
    | some request => .ofRequest ctx.chords part chord request
    | none => .ofDegrees ctx.chords part

/-- The meaning of a part: a named pitch, a named sample, a named ornament, or what the category of
the instrument makes of it, while `chord` is the current chord. -/
def Part.resolve (ctx : Context) (part chord : Text) : Part :=
  match ctx.literals.find? part with
  | some pitch => .literal part pitch
  | none =>
    if ctx.samples.contains part then .sample part
    else
      match ctx.ornaments.find? part with
      | some found => .ornament found
      | none => .ofCategory ctx part chord

end ScoreScript.Notation
