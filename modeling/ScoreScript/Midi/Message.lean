import ScoreScript.Timeline.Event
import ScoreScript.Velocity

set_option autoImplicit false

namespace ScoreScript.Midi

inductive Message where
  | noteOff (channel note velocity : Int)
  | noteOn (channel note velocity : Int)
  | controlChange (channel control value : Int)
  | programChange (channel program : Int)
deriving DecidableEq, Repr

inductive MetaMessage where
  | marker (text : Text)
  | trackName (text : Text)
  | timeSignature (beats : Int) (denominator : Nat)
  | tempo (microseconds : Int)
  | endOfTrack
deriving DecidableEq, Repr

def bankSelect : Int := 0

def channelOf (channel : Int) : Int := clampTo 0 15 channel

/-- The messages of an event, in order. A program change selects its bank first, unless the bank is
negative. Samples have no messages. -/
def messagesOf (e : Event) : List Message :=
  let channel := channelOf e.channel
  match e.kind with
  | .noteOn => [.noteOn channel (clampData e.note) (clampData e.velocity)]
  | .noteOff => [.noteOff channel (clampData e.note) (clampData e.velocity)]
  | .controlChange => [.controlChange channel (clampData e.control) (clampData e.value)]
  | .programChange =>
    (if 0 ≤ e.bank then [.controlChange channel bankSelect (clampData e.bank)] else []) ++
      [.programChange channel (clampData e.program)]
  | .sample => []

def timed {α : Type} (delta : Int) : List α → List (Int × α)
  | [] => []
  | message :: rest => (delta, message) :: rest.map fun message => (0, message)

namespace Message

def status : Message → Nat
  | noteOff channel _ _ => 0x80 + channel.toNat
  | noteOn channel _ _ => 0x90 + channel.toNat
  | controlChange channel _ _ => 0xB0 + channel.toNat
  | programChange channel _ => 0xC0 + channel.toNat

def data : Message → List Nat
  | noteOff _ note velocity => [note.toNat, velocity.toNat]
  | noteOn _ note velocity => [note.toNat, velocity.toNat]
  | controlChange _ control value => [control.toNat, value.toNat]
  | programChange _ program => [program.toNat]

end Message

end ScoreScript.Midi
