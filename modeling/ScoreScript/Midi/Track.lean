import ScoreScript.Midi.Bytes
import ScoreScript.Midi.Message
import ScoreScript.Timeline.Basic

set_option autoImplicit false

namespace ScoreScript.Midi

def stepsToTicks (steps stepsPerBeat ticksPerBeat : Int) : Except Fault Int := do
  let stepsPerBeat := if stepsPerBeat ≤ 0 then 12 else stepsPerBeat
  let ticksPerStep ← Binary64.ofQuotient ticksPerBeat stepsPerBeat
  ((← Binary64.ofWhole steps) * ticksPerStep).nearest

def millisecondsToTicks (milliseconds : Binary64) (bpm ticksPerBeat : Int) : Except Fault Int := do
  if bpm ≤ 0 then return 0
  else
    let beats := milliseconds / 1000 * (← Binary64.ofWhole bpm) / 60
    (beats * (← Binary64.ofWhole ticksPerBeat)).nearest

structure Timed where
  tick : Int
  event : Event
deriving DecidableEq

def order (e : Event) : Nat :=
  match e.kind with
  | .noteOff => 0
  | .controlChange | .programChange => 1
  | .noteOn | .sample => 2

def tickOf (t : Timeline) (ticksPerBeat : Int) (slot : Nat) (e : Event) : Except Fault Int := do
  let start ← stepsToTicks slot t.stepsPerBeat ticksPerBeat
  if e.delay.isZero then return start
  else return start + (← millisecondsToTicks e.delay t.bpm ticksPerBeat)

def timedEvents (t : Timeline) (ticksPerBeat : Int) : Except Fault (List Timed) :=
  t.events.mapM fun (slot, e) => return ⟨← tickOf t ticksPerBeat slot e, e⟩

def channelEvents (events : List Timed) : List Timed := events.filter (·.event.kind ≠ .sample)

def channels (events : List Timed) : List Int :=
  (events.map (·.event.channel)).eraseDups.mergeSort

def eventsOf (channel : Int) (events : List Timed) : List Timed :=
  events.filter (·.event.channel = channel)

def byChannel (events : List Timed) : List (Int × List Timed) :=
  let events := channelEvents events
  (channels events).map fun channel => (channel, eventsOf channel events)

def sampleTriggers (events : List Timed) : List (Int × Text) :=
  (events.filter (·.event.kind = .sample)).map fun e => (e.tick, e.event.sample)

def Timed.notAfter (a b : Timed) : Bool :=
  a.tick < b.tick || (a.tick = b.tick && order a.event ≤ order b.event)

def sorted (events : List Timed) : List Timed := events.mergeSort Timed.notAfter

/-- The messages of events that follow each other, each with the time since the message before;
`last` is the tick of the event before them. -/
def messagesFrom (last : Int) : List Timed → List (Int × Message)
  | [] => []
  | e :: rest => timed (e.tick - last) (messagesOf e.event) ++ messagesFrom e.tick rest

def channelMessages (events : List Timed) : List (Int × Message) := messagesFrom 0 (sorted events)

def triggerNotAfter (a b : Int × Text) : Bool :=
  a.1 < b.1 || (a.1 = b.1 && Text.le a.2 b.2)

def markersFrom (last : Int) : List (Int × Text) → List (Int × MetaMessage)
  | [] => []
  | trigger :: rest => (trigger.1 - last, .marker trigger.2) :: markersFrom trigger.1 rest

def markers (triggers : List (Int × Text)) : List (Int × MetaMessage) :=
  markersFrom 0 (triggers.mergeSort triggerNotAfter)

end ScoreScript.Midi
