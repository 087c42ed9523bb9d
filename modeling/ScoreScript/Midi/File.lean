import ScoreScript.Midi.Track

set_option autoImplicit false

namespace ScoreScript.Midi

def defaultResolution : Int := 960

def resolutionOr (ticksPerBeat : Option Int) : Int :=
  match ticksPerBeat with
  | none | some 0 => defaultResolution
  | some n => n

def microsecondsPerBeat (bpm : Int) : Except Fault Int := do
  let pace ← Binary64.ofWhole bpm
  let least := Binary64.ofRat (1 / 1000000)
  (Binary64.ofInt 60000000 / (if Binary64.lt least pace then pace else least)).nearest

def denominator (t : Timeline) : Nat := if t.stepsPerBeat = 6 then 8 else 4

inductive FileMessage where
  | channel (message : Message)
  | info (message : MetaMessage)
deriving DecidableEq, Repr

abbrev Track := List (Int × FileMessage)

def paceMessages (t : Timeline) : Except Fault (List MetaMessage) := do
  if t.beats < 0 ∨ 255 < t.beats then throw .beatsOutOfRange
  let tempo ← microsecondsPerBeat t.bpm
  if tempo < 0 ∨ 16777215 < tempo then throw .tempoOutOfRange
  return [.timeSignature t.beats (denominator t), .tempo tempo]

def conductorTrack (pace : List MetaMessage) (triggers : List (Int × Text)) : Track :=
  ((.trackName "Conductor" :: pace).map fun m => (0, .info m)) ++
    (markers triggers).map fun m => (m.1, .info m.2)

def channelTrack (channel : Int) (events : List Timed) : Track :=
  (0, .info (.trackName ("Channel " ++ Text.ofInt (channel + 1)))) ::
    (channelMessages events).map fun m => (m.1, .channel m.2)

def tracks (pace : List MetaMessage) (events : List Timed) : List Track :=
  conductorTrack pace (sampleTriggers events) ::
    (byChannel events).map fun (channel, events) => channelTrack channel events

def MetaMessage.content : MetaMessage → Except Fault (Nat × List Nat)
  | .marker text => return (0x06, ← latin1 text)
  | .trackName text => return (0x03, ← latin1 text)
  | .timeSignature beats denominator =>
    .ok (0x58, [beats.toNat, Nat.log2 denominator, 24, 8])
  | .tempo microseconds => .ok (0x51, bigEndian 3 microseconds.toNat)
  | .endOfTrack => .ok (0x2F, [])

def MetaMessage.bytes (m : MetaMessage) : Except Fault (List Nat) := do
  let (kind, data) ← m.content
  return 0xFF :: kind :: variableLength data.length ++ data

def trackBytes (running : Option Nat) : Track → Except Fault (List Nat)
  | [] => .ok []
  | (delta, message) :: rest => do
    if delta < 0 then throw .negativeDelta
    let time := variableLength delta.toNat
    match message with
    | .info m =>
      let bytes ← m.bytes
      return time ++ bytes ++ (← trackBytes none rest)
    | .channel m =>
      let status := if running = some m.status then [] else [m.status]
      return time ++ status ++ m.data ++ (← trackBytes (some m.status) rest)

def chunk (kind : String) (content : List Nat) : List Nat :=
  (Text.of kind).map CodePoint.toNat ++ bigEndian 4 content.length ++ content

/-- A number in two bytes, negative numbers as their complement. -/
def signedWord (n : Int) : Except Fault (List Nat) :=
  if n < -32768 ∨ 32767 < n then .error .resolutionOutOfRange
  else .ok (bigEndian 2 (n % 65536).toNat)

def headerChunk (trackCount : Nat) (ticksPerBeat : Int) : Except Fault (List Nat) :=
  return chunk "MThd" (bigEndian 2 1 ++ bigEndian 2 trackCount ++ (← signedWord ticksPerBeat))

def trackChunk (track : Track) : Except Fault (List Nat) :=
  return chunk "MTrk" (← trackBytes none (track ++ [(0, .info .endOfTrack)]))

def file (t : Timeline) (ticksPerBeat : Int) : Except Fault (List (List Nat)) := do
  let events ← timedEvents t ticksPerBeat
  let tracks := tracks (← paceMessages t) events
  let header ← headerChunk tracks.length ticksPerBeat
  return header :: (← tracks.mapM trackChunk)

end ScoreScript.Midi
