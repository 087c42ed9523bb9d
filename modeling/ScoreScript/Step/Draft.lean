import ScoreScript.Degree
import ScoreScript.Step
import ScoreScript.Text.Blank
import ScoreScript.Text.Digit

set_option autoImplicit false

namespace ScoreScript.Step

structure Draft where
  kind : Step.Kind := .silence
  pitches : List Int := []
  samples : List Text := []
  staffPlaces : List Int := []
  text : Text := []
  octaveHint : Int := 0
  ornament : Option Ornament := none
  error : Option Diagnostic.Kind := none
deriving DecidableEq, Repr

namespace Draft

def literalPlace : Int := 12

def samplePlace : Int := 7

def errorPlace : Int := 2

def errorPitch : Int := -1

def drumNote? : CodePoint → Option Int
  | .char 'b' => some 36
  | .char 's' => some 38
  | .char '1' => some 41
  | .char '2' => some 45
  | .char '3' => some 47
  | .char '4' => some 48
  | .char 'i' => some 37
  | .char 'h' => some 42
  | .char 'o' => some 46
  | .char 'r' => some 51
  | .char 'c' => some 49
  | _ => none

def fail (d : Draft) (kind : Diagnostic.Kind) : Draft := { d with error := d.error.or (some kind) }

def octavesAbove (previous : Option Int) (pitch : Int) : Nat :=
  match previous with
  | none => 0
  | some previous => if previous < pitch then 0 else ((previous - pitch) / 12 + 1).toNat

theorem lt_octavesAbove (previous pitch : Int) :
    previous < pitch + 12 * octavesAbove (some previous) pitch := by
  simp only [octavesAbove]
  split <;> omega

def addNote (d : Draft) (pitch place : Int) : Draft :=
  let octaves := octavesAbove d.pitches.getLast? pitch
  { d with
    pitches := d.pitches ++ [pitch + 12 * octaves]
    staffPlaces := d.staffPlaces ++ [place + 7 * octaves] }

/-- Adds a pitch given by name. Drum hits sound together in any order, so they stay where they
are. -/
def addLiteral (d : Draft) (name : Text) (pitch : Int) (isDrum : Bool) : Draft :=
  let d := { d with text := d.text ++ name ++ " ", octaveHint := 0 }
  if isDrum then
    { d with
      kind := .drum
      pitches := d.pitches ++ [pitch]
      staffPlaces := d.staffPlaces ++ [literalPlace] }
  else { d.addNote pitch literalPlace with kind := .synth }

def addSample (d : Draft) (name : Text) : Draft :=
  { d with
    kind := .sample
    text := d.text ++ name ++ " "
    staffPlaces := d.staffPlaces ++ [samplePlace]
    samples := d.samples ++ [name]
    octaveHint := 0 }

def addText (d : Draft) (text : Text) : Draft :=
  { d with kind := .text, text := text, octaveHint := 0 }

def addOrnament (d : Draft) (ornament : Option Ornament) : Draft := { d with ornament }

def addDrum (d : Draft) (letter : CodePoint) : Draft :=
  if letter = '.' then d
  else
    let note := drumNote? letter.toLower
    let d := if note.isNone then d.fail .invalidDrum else d
    { d with
      kind := .drum
      pitches := d.pitches ++ [note.getD 0]
      staffPlaces := d.staffPlaces ++ [literalPlace]
      text := d.text ++ [letter]
      octaveHint := 0 }

def addDrums (d : Draft) (letters : Text) : Draft := letters.foldl addDrum d

def rangeError? (d : Draft) : Option Diagnostic.Kind :=
  let pitch := d.pitches.getLast?.getD 0
  let place := d.staffPlaces.getLast?.getD 0
  if place < Degree.lowestPlace ∨ pitch < 0 then some .noteTooLow
  else if Degree.highestPlace < place ∨ 127 < pitch then some .noteTooHigh
  else none

def addDegree (octave transposition : Int) (d : Draft) (degree : Text) : Draft :=
  if degree = "." then { d with kind := .silence, text := [] }
  else
    let d : Draft := { d with kind := .synth }
    match Degree.index? degree with
    | none => d.fail .syntaxError
    | some index =>
      let midi : Int := (octave - 1) * 12 + index
      let hint := if d.octaveHint = 0 ∧ 24 < midi then midi / 12 - 2 else d.octaveHint
      let d := d.addNote (midi + transposition) (Degree.staffPlace index)
      let d := { d with octaveHint := hint, text := d.text ++ Degree.display midi ++ " " }
      match d.rangeError? with
      | none => d
      | some kind => d.fail kind

/-- The degrees that a word writes, each with its sharp and its quotes. A quote in front lowers all of
them, a quote at the end raises the first. -/
def degreesOf (word : Text) : List Text :=
  go (word.head? = some '\'' || (Text.of "#'").isPrefixOf word) false (word.getLast? = some '\'') word
where
  -- The degrees from a point on, after a sharp or not; `higher` is spent on the next one.
  go (lower sharp higher : Bool) : Text → List Text
    | [] => []
    | c :: rest =>
      if c = '#' then go lower true higher rest
      else if c = '\'' then go lower sharp higher rest
      else
        let sign (written : Bool) (c : CodePoint) : Text := if written then [c] else []
        (sign sharp '#' ++ sign lower '\'' ++ [c] ++ sign higher '\'') :: go lower false false rest

def looksLikeNote (word : Text) : Bool :=
  word.head?.any fun (c : CodePoint) => c = '#' || Text.showsDigit c

def mark (d : Draft) (word : Text) : Draft :=
  let d := { d with text := word, pitches := [errorPitch] }
  match d.error with
  | some .noteTooLow => { d with staffPlaces := [Degree.lowestPlace] }
  | some .noteTooHigh => { d with staffPlaces := [Degree.highestPlace] }
  | some .syntaxError =>
    { d with
      staffPlaces := [errorPlace]
      error := some (if looksLikeNote word then .invalidNote else .syntaxError) }
  | _ => { d with staffPlaces := [errorPlace] }

def markIfError (d : Draft) (word : Text) : Draft := if d.error.isSome then d.mark word else d

def addDegrees (d : Draft) (word : Text) (octave transposition : Int) : Draft :=
  ((degreesOf word).foldl (addDegree octave transposition) d).markIfError word

end Draft

def ascending (pitches : List Int) : List Int := (pitches.mergeSort).eraseDups

def Draft.finish (d : Draft) (velocity length : Int) : Step :=
  let step : Step :=
    { kind := d.kind
      pitches := d.pitches
      samples := d.samples
      staffPlaces := d.staffPlaces
      text := if d.kind = .text then d.text else Text.trim d.text
      velocity := velocity
      length := max 1 length
      octaveHint := d.octaveHint
      ornament := d.ornament
      error := d.error }
  if d.kind = .drum ∧ d.error.isNone then
    let hits := ascending d.pitches
    { step with pitches := hits, staffPlaces := List.replicate hits.length Draft.literalPlace }
  else step

end ScoreScript.Step
