import ScoreScript.Number.Binary64
import ScoreScript.Text.Basic

set_option autoImplicit false

namespace ScoreScript

inductive Event.Kind where
  | noteOn
  | noteOff
  | controlChange
  | programChange
  | sample
deriving DecidableEq, Repr

structure Event where
  kind : Event.Kind
  channel : Int := 0
  note : Int := 0
  velocity : Int := 0
  control : Int := 0
  value : Int := 0
  program : Int := 0
  bank : Int := 0
  sample : Text := []
  path : Text := []
  volume : Int := 0
  delay : Binary64 := .number 0
deriving DecidableEq

namespace Event

def isNoteOn (e : Event) : Bool := e.kind = .noteOn

def isNoteOff (e : Event) : Bool := e.kind = .noteOff

end Event

end ScoreScript
