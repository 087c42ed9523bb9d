import ScoreScript.Score.Header
import ScoreScript.Velocity

set_option autoImplicit false

namespace ScoreScript.Score

def controlName : Text := "control"

structure ControlTarget where
  instrument : Text
  sectionName : Option Text
  measures : Option Text
  message : Text
deriving DecidableEq, Repr

def ControlTarget.ofPath? (path : List Text) : Option ControlTarget :=
  match path with
  | instrument :: second :: rest =>
    some {
      instrument
      sectionName := if rest = [] then none else some second
      measures := if rest.length < 2 then none else rest.head?
      message := (second :: rest).getLast?.getD [] }
  | _ => none

structure MeasureRange where
  first : Int
  last : Int
deriving DecidableEq, Repr

def MeasureRange.has (range : MeasureRange) (index : Nat) : Bool :=
  range.first ≤ index + 1 && index + 1 ≤ range.last

def velocityMessage : Text := "velocity"

/-- The measures that a target addresses out of `count`: those it gives, or else all of them for
velocities and the first one for messages. -/
def ControlTarget.range (target : ControlTarget) (count : Nat) : MeasureRange :=
  match target.measures with
  | none => ⟨1, if target.message = velocityMessage then count else 1⟩
  | some range =>
    match Text.splitOnWord ".." range with
    | [first, last] => ⟨Text.toIntOrZero first, Text.toIntOrZero last⟩
    | pieces =>
      let only := Text.toIntOrZero (pieces.head?.getD [])
      ⟨only, only⟩

inductive ControlChange where
  -- Velocities are set or changed as the text says.
  | velocity (text : Text)
  -- Messages are put at the start.
  | messages (messages : List ControlMessage)
deriving DecidableEq, Repr

def controllerMessages (controllers : Table Int) (line : Nat) (values : Table Int) :
    List ControlMessage × List Diagnostic :=
  let number (name : Text) : Int := (controllers.find? name).getD (Text.toIntOrZero name)
  (values.filterMap fun entry =>
      if 0 < number entry.1 then some (.controller (number entry.1) (clampData entry.2)) else none,
    values.filterMap fun entry =>
      if 0 < number entry.1 then none else some ⟨.unexpectedKeyword, entry.1, line⟩)

/-- What a control line does, if its message is known and well written, and the reports on it. Banks
and programs are counted from one in scripts and from zero in scores. -/
def ControlChange.read (controllers : Table Int) (line : Nat) (message value : Text) :
    Except Fault (Option ControlChange × List Diagnostic) := do
  if message = velocityMessage then return (some (.velocity value), [])
  else if message = "program" then
    match Text.fields '.' value with
    | [bank, program] =>
      let change := ControlMessage.program (Text.toIntOrZero bank - 1) (Text.toIntOrZero program - 1)
      return (some (.messages [change]), [])
    | _ => return (none, [⟨.syntaxError, value, line⟩])
  else if message = "cc" then
    let values ← Text.readControllers value
    let (changes, reports) := controllerMessages controllers line values
    return (some (.messages changes),
      (if values = [] then [⟨.ccSyntaxError, value, line⟩] else []) ++ reports)
  else return (none, [⟨.unexpectedKeyword, message, line⟩])

/-- The measure after a change. An empty measure gets a silent step to carry messages. -/
def ControlChange.apply (change : ControlChange) (measure : Measure) : Measure :=
  match change with
  | .velocity text => measure.map fun s => { s with velocity := adjustVelocity s.velocity text }
  | .messages [] => measure
  | .messages changes =>
    match measure with
    | [] => [{ messages := changes }]
    | step :: rest => { step with messages := step.messages ++ changes } :: rest

def changeSection (name : Text) (change : MusicalSection → MusicalSection) :
    List MusicalSection → List MusicalSection
  | [] => []
  | s :: rest => if s.name = name then change s :: rest else s :: changeSection name change rest

def controlledMeasures (s : MusicalSection) (instrument : Text) : List Measure :=
  match s.measuresOf instrument with
  | [] => [[]]
  | measures => measures

def applyChange (target : ControlTarget) (change : ControlChange) (s : MusicalSection) :
    MusicalSection :=
  let measures := controlledMeasures s target.instrument
  let range := target.range measures.length
  let changed := measures.mapIdx fun index measure =>
    if range.has index then change.apply measure else measure
  { s with measures := s.measures.insert target.instrument changed }

def ControlTarget.sectionIn (target : ControlTarget) (c : Score) : Text :=
  target.sectionName.getD ((c.sections.head?.map (·.name)).getD [])

def readControlLine (r : Reading) (line : Script.Line) : Except Fault Reading :=
  match ControlTarget.ofPath? line.path with
  | none => return r.report .syntaxError line.key line.number
  | some target =>
    let name := target.sectionIn r.score
    match r.score.section? name with
    | none => return r.report .undefinedSection name line.number
    | some _ => do
      let (change, reports) ←
        ControlChange.read r.score.controllers line.number target.message (Text.trim line.value)
      let r := { r with reports := r.reports ++ reports }
      match change with
      | none => return r
      | some change =>
        return r.update fun c =>
          { c with sections := changeSection name (applyChange target change) c.sections }

def readControl (r : Reading) : Option Script.Section → Except Fault Reading
  | none => return r
  | some s => s.lines.foldlM readControlLine r

end ScoreScript.Score
