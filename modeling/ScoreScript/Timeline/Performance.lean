import ScoreScript.Score.Basic
import ScoreScript.Timeline.Basic
import ScoreScript.Velocity

set_option autoImplicit false

/-!
# Performance

The events of a score. Every step is played at its place: its messages, its notes as the ornament
wants them, its samples, and the ends of its notes. Sections follow each other at their nominal
lengths, and what hangs over goes to the front slots of the next one.
-/

namespace ScoreScript

namespace ControlMessage

def event (channel : Int) : ControlMessage → Event
  | .controller number value =>
    { kind := .controlChange, channel := channel, control := number, value := clampData value }
  | .program bank number =>
    { kind := .programChange, channel := channel, program := number, bank := bank }

end ControlMessage

namespace Performance

structure Voice where
  channel : Int
  velocity : Int

namespace Voice

def noteOn (v : Voice) (note : Int) : Event :=
  { kind := .noteOn, channel := v.channel, note := note, velocity := v.velocity }

def noteOff (v : Voice) (note : Int) : Event :=
  { kind := .noteOff, channel := v.channel, note := note, velocity := v.velocity }

end Voice

/-- The notes of an arpeggio from a slot on, one after another in turn, while a note still starts before
`stop`; `k` notes have been played. -/
def arpeggio (v : Voice) (notes : List Int) (spacing duration stop : Int) (k : Nat) (slot : Int) :
    List Placed :=
  if _ongoing : 0 < spacing ∧ slot < stop then
    match notes[k % notes.length]? with
    | none => []
    | some note =>
      .one slot (v.noteOn note) :: .one (slot + duration) (v.noteOff note) ::
        arpeggio v notes spacing duration stop (k + 1) (slot + spacing)
  else []
termination_by (stop - slot).toNat

def strum (v : Voice) (notes : List Int) (delay decay floor slot : Int) : List Placed :=
  go v 0 notes
where
  -- The starts of the remaining notes, when `k` notes have started.
  go (v : Voice) (k : Nat) : List Int → List Placed
    | [] => []
    | note :: rest =>
      .one slot { v.noteOn note with delay := .ofInt (k * delay) } ::
        go { v with velocity := decayVelocity v.velocity decay floor } (k + 1) rest

def sampleEvent (v : Voice) (name : Text) (sample : Sample) : Event :=
  { kind := .sample, channel := v.channel, sample := name, path := sample.path,
    volume := Int.fdiv (v.velocity * sample.volume) 100 }

inductive Figure where
  | events (placed : List Placed)
  -- An arpeggio from a slot on; its notes start before `stop`.
  | arpeggio (v : Voice) (notes : List Int) (spacing duration stop slot : Int)

def Figure.placed : Figure → List Placed
  | events placed => placed
  | arpeggio v notes spacing duration stop slot =>
    Performance.arpeggio v notes spacing duration stop 0 slot

def starts (samples : Table Sample) (floor : Int) (v : Voice) (slot length : Int) (step : Step) :
    List Figure :=
  let notes : Figure := match step.ornament with
    | some (.arpeggio _ spacing duration) =>
      .arpeggio v step.playingOrder spacing duration (slot + length - duration) slot
    | some (.strum _ delay decay) => .events (strum v step.playingOrder delay decay floor slot)
    | none =>
      .events (if step.isNote then step.pitches.map fun note => .one slot (v.noteOn note) else [])
  [notes, .events (step.samples.filterMap fun name =>
    (samples.find? name).map fun sample => .one slot (sampleEvent v name sample))]

def ends (v : Voice) (slot : Int) (step : Step) : List Placed :=
  if step.isNote then step.pitches.map fun note => .one (slot + step.length) (v.noteOff note) else []

/-- The length of a step for its ornament: with all that it is tied to, if it is tied at all. -/
def soundingLength (step : Step) (following : List Step) : Int :=
  if step.tiesForward then MusicalSection.tiedLength (step :: following) else step.length

def stepFigures (samples : Table Sample) (floor channel slot : Int) (step : Step)
    (following : List Step) : List Figure :=
  let v : Voice := ⟨channel, clampData step.velocity⟩
  let messages := step.messages.map fun message => .one slot (message.event channel)
  let starting := if step.tiesBackward || step.isError then []
    else starts samples floor v slot (soundingLength step following) step
  let ending := if step.tiesForward || step.isError then [] else ends v slot step
  .events messages :: starting ++ [.events ending]

def measureFigures (samples : Table Sample) (floor channel : Int) (after : List Step) (slot : Int) :
    Measure → List Figure
  | [] => []
  | step :: rest =>
    stepFigures samples floor channel slot step (rest ++ after) ++
      measureFigures samples floor channel after (slot + step.length) rest

def measuresFigures (samples : Table Sample) (floor channel stepsPerMeasure slot : Int) :
    List Measure → List Figure
  | [] => []
  | measure :: rest =>
    measureFigures samples floor channel rest.flatten slot measure ++
      measuresFigures samples floor channel stepsPerMeasure (slot + stepsPerMeasure) rest

def instrumentFigures (c : Score) (floor : Int) (s : MusicalSection) (i : Instrument) :
    List Figure :=
  measuresFigures c.samples floor i.channel c.grid.stepsPerMeasure 0 (s.measuresOf i.name)

def sectionFigures (c : Score) (floor : Int) (s : MusicalSection)
    (instruments : List Instrument) : List Figure :=
  instruments.flatMap (instrumentFigures c floor s)

def sectionEvents (c : Score) (floor : Int) (s : MusicalSection)
    (instruments : List Instrument) : List Placed :=
  (sectionFigures c floor s instruments).flatMap Figure.placed

def nominalLength (c : Score) (s : MusicalSection) : Int :=
  s.length * c.grid.stepsPerMeasure

def isEndless (p : Placed) : Bool := p.events.any fun e => e.delay.isInfinite

def perform (slots : Placed.Slots) (p : Placed) : Except Fault Placed.Slots :=
  if isEndless p then .error .numberTooLarge else Placed.add slots p

theorem foldlM_perform (slots : Placed.Slots) {placed : List Placed}
    (inTime : ∀ p ∈ placed, isEndless p = false) :
    placed.foldlM perform slots = Placed.addAll slots placed := by
  induction placed generalizing slots with
  | nil => rfl
  | cons p rest ih =>
    have here : perform slots p = Placed.add slots p := by simp [perform, inTime p (by simp)]
    simp only [List.foldlM_cons, here, Placed.addAll]
    congr 1
    funext grown
    exact ih grown fun q member => inTime q (by simp [member])

/-- Performs the notes of an arpeggio one by one, so that a fault ends even a very long one at once. -/
def performArpeggio (v : Voice) (notes : List Int) (spacing duration stop : Int) (k : Nat) (slot : Int)
    (slots : Placed.Slots) : Except Fault Placed.Slots :=
  if _ongoing : 0 < spacing ∧ slot < stop then
    match notes[k % notes.length]? with
    | none => .ok slots
    | some note => do
      let slots ← perform slots (.one slot (v.noteOn note))
      let slots ← perform slots (.one (slot + duration) (v.noteOff note))
      performArpeggio v notes spacing duration stop (k + 1) (slot + spacing) slots
  else .ok slots
termination_by (stop - slot).toNat

theorem performArpeggio_eq_foldlM (v : Voice) (notes : List Int) (spacing duration stop : Int) (k : Nat)
    (slot : Int) (slots : Placed.Slots) :
    performArpeggio v notes spacing duration stop k slot slots =
      (arpeggio v notes spacing duration stop k slot).foldlM perform slots := by
  fun_induction arpeggio v notes spacing duration stop k slot generalizing slots with
  | case1 k slot ongoing missing => rw [performArpeggio, dif_pos ongoing, missing]; rfl
  | case2 k slot ongoing note found ih =>
    rw [performArpeggio, dif_pos ongoing, found]
    simp only [List.foldlM_cons, ih]
  | case3 k slot ended => rw [performArpeggio, dif_neg ended]; rfl

namespace Figure

/-- Whether a figure goes backwards: an arpeggio with a negative spacing, whose notes always start in
time. It leaves the row at its front. -/
def isBackward : Figure → Bool
  | events _ => false
  | arpeggio _ notes spacing _ stop slot => notes ≠ [] && spacing < 0 && slot < stop

def perform (slots : Placed.Slots) (f : Figure) : Except Fault Placed.Slots :=
  if f.isBackward then .error .outOfRange
  else
    match f with
    | events placed => placed.foldlM Performance.perform slots
    | arpeggio v notes spacing duration stop slot =>
      performArpeggio v notes spacing duration stop 0 slot slots

theorem perform_eq_foldlM (slots : Placed.Slots) {f : Figure} (forward : f.isBackward = false) :
    f.perform slots = f.placed.foldlM Performance.perform slots := by
  cases f with
  | events => rfl
  | arpeggio =>
    rw [perform.eq_def, forward]
    exact performArpeggio_eq_foldlM ..

theorem foldlM_perform (slots : Placed.Slots) {figures : List Figure}
    (forward : ∀ f ∈ figures, f.isBackward = false) :
    figures.foldlM perform slots = (figures.flatMap placed).foldlM Performance.perform slots := by
  induction figures generalizing slots with
  | nil => rfl
  | cons f rest ih =>
    have here := perform_eq_foldlM slots (forward f (by simp))
    simp only [List.foldlM_cons, List.flatMap_cons, List.foldlM_append, here]
    congr 1
    funext grown
    exact ih grown fun g member => forward g (by simp [member])

end Figure

/-- The slots of a section by itself; the notes of the last step end in the slot after the section. -/
def sectionSlots (c : Score) (floor : Int) (s : MusicalSection)
    (instruments : List Instrument) : Except Fault (List (List Event)) :=
  return (← (sectionFigures c floor s instruments).foldlM Figure.perform
    (Array.replicate (nominalLength c s + 1).toNat [])).toList

theorem sectionSlots_eq_layOut {c : Score} {floor : Int} {s : MusicalSection}
    {instruments : List Instrument}
    (forward : ∀ f ∈ sectionFigures c floor s instruments, f.isBackward = false)
    (inTime : ∀ p ∈ sectionEvents c floor s instruments, isEndless p = false) :
    sectionSlots c floor s instruments =
      Placed.layOut (nominalLength c s + 1).toNat (sectionEvents c floor s instruments) := by
  rw [sectionSlots, Figure.foldlM_perform _ forward]
  change (do return (← (sectionEvents c floor s instruments).foldlM perform _).toList) = _
  rw [foldlM_perform _ inTime, Placed.layOut]

def playedSections (c : Score) : List MusicalSection :=
  c.playlist.filterMap fun item => if item.selected then c.section? item.name else none

def placedFrom (offset : Int) (slots : List (List Event)) : List Placed :=
  slots.zipIdx.map fun slot => ⟨offset + slot.2, slot.1⟩

def joinSections (c : Score) (floor : Int) (instruments : List Instrument) (slots : Placed.Slots)
    (offset : Int) : List MusicalSection → Except Fault Placed.Slots
  | [] => .ok slots
  | s :: rest => do
    let own ← sectionSlots c floor s instruments
    let slots ← Placed.addAll slots (placedFrom offset own)
    joinSections c floor instruments slots (offset + nominalLength c s) rest

end Performance

def Score.timeline (c : Score) (floor : Int) : Except Fault Timeline := do
  let instruments := c.instruments.filter (·.selected)
  let slots ← Performance.joinSections c floor instruments #[] 0 (Performance.playedSections c)
  return {
    slots := slots.toList
    stepsPerBeat := c.grid.stepsPerBeat
    beats := c.grid.beats
    bpm := c.bpm }

end ScoreScript
