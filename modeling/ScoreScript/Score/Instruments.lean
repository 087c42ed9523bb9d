import ScoreScript.Score.Header
import ScoreScript.Settings
import ScoreScript.Text.Word
import ScoreScript.Velocity

set_option autoImplicit false

namespace ScoreScript.Score

def instrumentsName : Text := "instruments"

inductive InstrumentItem where
  | endpoint (endpoint : Text)
  | channel (channel : Int)
  | octave (octave : Int)
  | velocity (velocity : Int)
  | info
  | unknown (key : Text)
  | invalid

/-- The meaning of an item. Channels are counted from one in scripts and from zero in scores. -/
def InstrumentItem.ofText (item : Text) : InstrumentItem :=
  match Text.fields '=' item with
  | [key, value] =>
    let key := Text.trim key
    let n := Text.toIntOrZero value
    if key = "channel" then .channel (clampTo 0 15 (n - 1))
    else if key = "octave" then .octave (max 0 n)
    else if key = "velocity" then .velocity (clampData n)
    else if key = "info" then .info
    else .unknown key
  | [word] =>
    if Text.trim word = "sample" then .endpoint []
    else if .char '=' ∈ item then .invalid
    else .endpoint (Text.unquote word)
  | _ => .invalid

def changeInstrument (name : Text) (change : Instrument → Instrument) :
    List Instrument → List Instrument
  | [] => []
  | i :: rest => if i.name = name then change i :: rest else i :: changeInstrument name change rest

def readInstrumentItem (name : Text) (line : Nat) (r : Reading) (item : Text) : Reading :=
  let change (f : Instrument → Instrument) : Reading :=
    r.update fun c => { c with instruments := changeInstrument name f c.instruments }
  match InstrumentItem.ofText item with
  | .endpoint endpoint => change fun i => { i with endpoint }
  | .channel channel => change fun i => { i with channel }
  | .octave octave => change fun i => { i with octave }
  | .velocity velocity => change fun i => { i with velocity }
  | .info => r
  | .unknown key => r.report .unexpectedKeyword key line
  | .invalid => r.report .syntaxError (Text.trim item) line

def declareInstrument (settings : Settings) (r : Reading) (name : Text) : Except Fault Reading :=
  match r.score.instrument? name with
  | some _ => return r
  | none => do
    let velocity ← settings.instrumentVelocity.toInt
    let i : Instrument := { name, velocity, endpoint := settings.endpoint.display }
    return r.update fun c => { c with instruments := c.instruments ++ [i] }

def readInstrumentLine (settings : Settings) (r : Reading) (line : Script.Line) :
    Except Fault Reading := do
  let r ← declareInstrument settings r line.key
  return line.items.foldl (readInstrumentItem line.key line.number) r

def readInstruments (settings : Settings) (r : Reading) : Option Script.Section →
    Except Fault Reading
  | none => return r.report .missingSection instrumentsName 0
  | some s => s.lines.foldlM (readInstrumentLine settings) r

end ScoreScript.Score
