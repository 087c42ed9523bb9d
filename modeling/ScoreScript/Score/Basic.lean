import ScoreScript.Fault
import ScoreScript.Position
import ScoreScript.Step
import ScoreScript.Table
import ScoreScript.Text.Blank

set_option autoImplicit false

namespace ScoreScript

structure Grid where
  beats : Int := 4
  stepsPerBeat : Int := 12
deriving DecidableEq, Repr

def Grid.stepsPerMeasure (g : Grid) : Int := g.beats * g.stepsPerBeat

def Grid.signatures : List (String × Grid) :=
  [("2/4", ⟨2, 12⟩), ("3/4", ⟨3, 12⟩), ("4/4", ⟨4, 12⟩), ("5/4", ⟨5, 12⟩), ("5/8", ⟨5, 6⟩),
    ("6/8", ⟨6, 6⟩), ("7/8", ⟨7, 6⟩)]

def Grid.ofSignature? (signature : Text) : Option Grid :=
  (Grid.signatures.find? fun entry => Text.of entry.1 = Text.trim signature).map Prod.snd

inductive Category where
  | synth
  | drum
  | sample
  | text
  | chord
deriving DecidableEq, Repr

structure Sample where
  path : Text := []
  volume : Int := 100
deriving DecidableEq, Repr

structure Instrument where
  name : Text
  endpoint : Text := "MIDI Input"
  channel : Int := 0
  octave : Int := 0
  velocity : Int := 100
  selected : Bool := true
deriving DecidableEq, Repr

namespace Instrument

/-- An instrument without an endpoint plays samples. -/
def isSampler (i : Instrument) : Bool := i.endpoint = []

/-- An instrument without an octave that plays no samples is a drum kit. -/
def isDrum (i : Instrument) : Bool := i.octave = 0 && !i.isSampler

def midiOctave (i : Instrument) : Int := if i.octave = 0 then 0 else i.octave + 2

def category (i : Instrument) : Category :=
  if i.isSampler then .sample
  else if Text.hasWord "text" i.name then .text
  else if Text.hasWord "chord" i.name then .chord
  else if i.octave = 0 then .drum
  else .synth

end Instrument

structure PlaylistItem where
  name : Text
  selected : Bool := true
deriving DecidableEq, Repr

structure MusicalSection where
  name : Text
  measures : Table (List Measure) := []
deriving DecidableEq, Repr

namespace MusicalSection

def length (s : MusicalSection) : Nat := (s.measures.map fun entry => entry.2.length).foldr max 0

def measuresOf (s : MusicalSection) (instrument : Text) : List Measure :=
  (s.measures.find? instrument).getD []

def chordInstrument : Text := "chord"

def chordAt (s : MusicalSection) (measure : Nat) (position : Int) : Text :=
  match (s.measuresOf chordInstrument)[measure]? with
  | none => []
  | some steps => ((Measure.stepAt? steps position).map Step.text).getD []

def chordAtPosition (s : MusicalSection) (measure position : Int) : Except Fault Text :=
  match positionIn (s.measuresOf chordInstrument).length measure with
  | .ofNat index => .ok (s.chordAt index position)
  | .negSucc _ => .error .outOfRange

def tiedLength : List Step → Int
  | [] => 0
  | [step] => step.length
  | step :: next :: rest =>
    if step.tiesForward && next.tiesBackward then step.length + tiedLength (next :: rest)
    else step.length

def tiedDuration (s : MusicalSection) (instrument : Text) (measure step : Int) : Int :=
  tiedLength (elementsFrom (elementsFrom (s.measuresOf instrument) measure).flatten step)

end MusicalSection

structure Score where
  title : Text := []
  author : Text := []
  signature : Text := "4/4"
  bpm : Int := 120
  grid : Grid := {}
  transposition : Int := 0
  instruments : List Instrument := []
  playlist : List PlaylistItem := []
  samples : Table Sample := []
  literals : Table Int := []
  ornaments : Table Ornament := []
  sequences : Table Text := []
  controllers : Table Int := []
  sections : List MusicalSection := []
deriving DecidableEq, Repr

namespace Score

def section? (c : Score) (name : Text) : Option MusicalSection :=
  c.sections.find? (·.name = name)

def instrument? (c : Score) (name : Text) : Option Instrument :=
  c.instruments.find? (·.name = name)

def measureCount (c : Score) : Nat :=
  c.playlist.foldl (fun count item =>
    count + ((c.section? item.name).map MusicalSection.length).getD 0) 0

end Score

end ScoreScript
