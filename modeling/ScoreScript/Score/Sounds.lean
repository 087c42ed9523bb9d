import ScoreScript.Score.Header
import ScoreScript.Settings
import ScoreScript.Text.Word
import ScoreScript.Velocity

set_option autoImplicit false

namespace ScoreScript.Score

def sequencesName : Text := "sequences"

def soundsName : Text := "sounds"

def addSequenceLine (sequences : Table Text) (line : Script.Line) : Table Text :=
  match sequences.find? line.key with
  | some body => sequences.insert line.key (body ++ " | " ++ line.value)
  | none => sequences.insert line.key line.value

def readSequences (r : Reading) : Option Script.Section → Reading
  | none => r
  | some s => r.update fun c => { c with sequences := s.lines.foldl addSequenceLine c.sequences }

structure SoundItems where
  call : Text := []
  modifiers : Table Settings.Value
  reports : List Diagnostic := []

def SoundItems.add (line : Nat) (s : SoundItems) (item : Text) : SoundItems :=
  let report (kind : Diagnostic.Kind) (info : Text) : SoundItems :=
    { s with reports := s.reports ++ [⟨kind, info, line⟩] }
  if .char '(' ∈ item ∧ .char ')' ∈ item then { s with call := item }
  else
    match Text.fields '=' item with
    | [key, value] =>
      let key := Text.trim key
      if s.modifiers.contains key then
        { s with modifiers := s.modifiers.insert key (.int (Text.toIntOrZero value)) }
      else report .unexpectedKeyword key
    | _ => report .syntaxError (Text.trim item)

def SoundItems.modifier (s : SoundItems) (name : String) : Except Fault Int :=
  ((s.modifiers.find? name).getD .null).toInt

def SoundItems.modifierIn (s : SoundItems) (low high : Int) (name : String) : Except Fault Int :=
  return clampTo low high (← s.modifier name)

def defineSound (r : Reading) (line : Script.Line) (s : SoundItems) (function : Text)
    (arguments : List Text) : Except Fault Reading := do
  let first := arguments.head?.getD []
  let order := arguments.map Text.toIntOrZero
  let enterOrnament (ornament : Ornament) : Reading :=
    r.update fun c => { c with ornaments := c.ornaments.insert line.key ornament }
  if function = "sample" then
    let sample : Sample := ⟨Text.unquote first, ← s.modifier "volume"⟩
    return r.update fun c => { c with samples := c.samples.insert line.key sample }
  else if function = "midi" then
    return r.update fun c =>
      { c with literals := c.literals.insert line.key (Text.toIntOrZero first) }
  else if function = "arp" then
    let spacing ← s.modifierIn 2 24 "step"
    let duration ← s.modifierIn 2 24 "duration"
    return enterOrnament (.arpeggio order spacing duration)
  else if function = "strum" then
    let delay ← s.modifierIn 3 15 "msec"
    let decay ← s.modifierIn 0 10 "vdec"
    return enterOrnament (.strum order delay decay)
  else return r.report .unexpectedKeyword function line.number

def readSoundLine (settings : Settings) (r : Reading) (line : Script.Line) :
    Except Fault Reading :=
  let s := (Text.splitOutsideParens ',' line.value).foldl (SoundItems.add line.number)
    { modifiers := settings.sound }
  let r := { r with reports := r.reports ++ s.reports }
  match Text.readCall? s.call with
  | some (function, argument :: arguments) =>
    defineSound r line s function (argument :: arguments)
  | _ =>
    let call := Text.trim s.call
    return r.report .syntaxError (if call = [] then line.key else call) line.number

def readSounds (settings : Settings) (r : Reading) : Option Script.Section →
    Except Fault Reading
  | none => return r
  | some s => s.lines.foldlM (readSoundLine settings) r

end ScoreScript.Score
