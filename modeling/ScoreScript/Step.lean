import ScoreScript.Diagnostic

set_option autoImplicit false

namespace ScoreScript

inductive Step.Kind where
  | synth
  | drum
  | sample
  | silence
  | text
deriving DecidableEq, Repr

inductive ControlMessage where
  | controller (number value : Int)
  | program (bank program : Int)
deriving DecidableEq, Repr

/-- A way to play the notes of a step one after another. Notes are counted from one, from the
bottom. -/
inductive Ornament where
  -- The notes in turn, again and again: steps between two notes, and steps that a note sounds.
  | arpeggio (order : List Int) (spacing duration : Int)
  -- Each note once: milliseconds between two notes, and loss of velocity in percent.
  | strum (order : List Int) (delay decay : Int)
deriving DecidableEq, Repr

namespace Ornament

def order : Ornament → List Int
  | arpeggio order _ _ => order
  | strum order _ _ => order

end Ornament

structure Step where
  kind : Step.Kind := .silence
  pitches : List Int := []
  samples : List Text := []
  messages : List ControlMessage := []
  staffPlaces : List Int := []
  text : Text := []
  velocity : Int := 80
  length : Int := 1
  octaveHint : Int := 0
  tiesForward : Bool := false
  tiesBackward : Bool := false
  ornament : Option Ornament := none
  error : Option Diagnostic.Kind := none
deriving DecidableEq, Repr

namespace Step

def isError (s : Step) : Bool := s.error.isSome

def isNote (s : Step) : Bool := s.kind = .synth || s.kind = .drum

def pitch? (s : Step) (number : Int) : Option Int :=
  match number with
  | .ofNat (i + 1) => s.pitches[i]?
  | _ => none

def playingOrder (s : Step) : List Int :=
  match s.ornament with
  | none => []
  | some ornament => ornament.order.filterMap s.pitch?

end Step

abbrev Measure := List Step

namespace Measure

def duration : Measure → Int
  | [] => 0
  | step :: rest => step.length + duration rest

@[simp] theorem duration_nil : duration [] = 0 := rfl

@[simp] theorem duration_cons (step : Step) (rest : Measure) :
    duration (step :: rest) = step.length + duration rest := rfl

@[simp] theorem duration_append (first second : Measure) :
    duration (first ++ second) = duration first + duration second := by
  induction first with
  | nil => simp
  | cons step rest ih => simp [ih, Int.add_assoc]

def stepAt? : Measure → Int → Option Step
  | [], _ => none
  | step :: rest, position =>
    if 0 ≤ position ∧ position < step.length then some step
    else stepAt? rest (position - step.length)

end Measure

end ScoreScript
