import ScoreScript.Proofs.Events
import ScoreScript.Proofs.Transposed

set_option autoImplicit false

namespace ScoreScript

def Measure.transposed (shift : Step → Int) (measure : Measure) : Measure :=
  measure.map fun step => step.transposed (shift step)

abbrev Shift := Text → Step → Int

def MusicalSection.transposed (shift : Shift) (s : MusicalSection) : MusicalSection :=
  { s with measures := s.measures.map fun entry => (entry.1, entry.2.map (Measure.transposed (shift entry.1))) }

def Score.transposed (shift : Shift) (c : Score) : Score :=
  { c with sections := c.sections.map (MusicalSection.transposed shift) }

namespace MusicalSection

variable (shift : Shift) (s : MusicalSection)

theorem measuresOf_transposed (name : Text) :
    (s.transposed shift).measuresOf name = (s.measuresOf name).map (Measure.transposed (shift name)) := by
  unfold measuresOf transposed
  dsimp only
  induction s.measures with
  | nil => rfl
  | cons entry rest ih =>
    obtain ⟨key, measures⟩ := entry
    rw [List.map_cons, Table.find?_cons, Table.find?_cons]
    by_cases here : name = key
    · rw [if_pos here, if_pos here, here]
      rfl
    · rw [if_neg here, if_neg here, ih]

theorem length_transposed : (s.transposed shift).length = s.length := by
  simp only [length, transposed, List.map_map]
  congr 2
  funext entry
  exact List.length_map ..

theorem tiedLength_transposed (interval : Int) (step : Step) (move : Step → Int) (following : List Step) :
    tiedLength (step.transposed interval :: Measure.transposed move following) =
      tiedLength (step :: following) := by
  induction following generalizing step interval with
  | nil => rfl
  | cons next more ih =>
    have later := ih (move next) next
    simp only [Measure.transposed, List.map_cons, tiedLength] at later ⊢
    rw [later]
    rfl

end MusicalSection

def Event.transposed (interval : Int) (e : Event) : Event :=
  if e.isNoteOn || e.isNoteOff then { e with note := e.note + interval } else e

theorem Event.delay_transposed (interval : Int) (e : Event) : (e.transposed interval).delay = e.delay := by
  unfold transposed
  split <;> rfl

def Placed.transposed (interval : Int) (p : Placed) : Placed :=
  { p with events := p.events.map (Event.transposed interval) }

namespace Step

variable (interval : Int) (s : Step)

theorem pitch?_transposed (number : Int) :
    (s.transposed interval).pitch? number = (s.pitch? number).map (· + interval) := by
  unfold pitch?
  split
  · exact List.getElem?_map ..
  · rfl

theorem playingOrder_transposed :
    (s.transposed interval).playingOrder = s.playingOrder.map (· + interval) := by
  unfold playingOrder
  cases ornament : s.ornament with
  | none => simp [transposed, ornament]
  | some shape =>
    simp only [transposed, ornament, List.map_filterMap]
    exact List.filterMap_congr fun number _ => pitch?_transposed interval s number

end Step

namespace Performance

open Placed

variable (interval : Int)

theorem arpeggio_transposed (v : Voice) (notes : List Int) (spacing duration stop : Int) (k : Nat)
    (slot : Int) :
    arpeggio v (notes.map (· + interval)) spacing duration stop k slot =
      (arpeggio v notes spacing duration stop k slot).map (Placed.transposed interval) := by
  fun_induction arpeggio v notes spacing duration stop k slot with
  | case1 k slot ongoing missing =>
    rw [arpeggio, dif_pos ongoing]
    simp [missing]
  | case2 k slot ongoing note found ih =>
    rw [arpeggio, dif_pos ongoing]
    simp only [List.length_map, List.getElem?_map, found, Option.map, ih, List.map_cons]
    rfl
  | case3 k slot ended => rw [arpeggio, dif_neg ended, List.map_nil]

theorem strum_transposed (v : Voice) (notes : List Int) (delay decay floor slot : Int) :
    strum v (notes.map (· + interval)) delay decay floor slot =
      (strum v notes delay decay floor slot).map (Placed.transposed interval) := by
  have go (v : Voice) (k : Nat) : strum.go delay decay floor slot v k (notes.map (· + interval)) =
      (strum.go delay decay floor slot v k notes).map (Placed.transposed interval) := by
    induction notes generalizing v k with
    | nil => rfl
    | cons note rest ih =>
      rw [List.map_cons, strum.go, strum.go, ih]
      rfl
  exact go v 0

def Figure.transposed (interval : Int) : Figure → Figure
  | events placed => events (placed.map (Placed.transposed interval))
  | arpeggio v notes spacing duration stop slot =>
    arpeggio v (notes.map (· + interval)) spacing duration stop slot

theorem Figure.placed_transposed (f : Figure) :
    (f.transposed interval).placed = f.placed.map (Placed.transposed interval) := by
  cases f with
  | events placed => rfl
  | arpeggio v notes spacing duration stop slot => exact arpeggio_transposed interval v notes ..

theorem Figure.isBackward_transposed (f : Figure) : (f.transposed interval).isBackward = f.isBackward := by
  cases f with
  | events placed => rfl
  | arpeggio v notes spacing duration stop slot =>
    simp only [transposed, isBackward, ne_eq, List.map_eq_nil_iff]

variable {samples : Table Sample} {floor channel : Int}

theorem starts_transposed (v : Voice) (slot length : Int) (s : Step) :
    starts samples floor v slot length (s.transposed interval) =
      (starts samples floor v slot length s).map (Figure.transposed interval) := by
  have played : (s.samples.filterMap fun name =>
      (samples.find? name).map fun sample => one slot (sampleEvent v name sample)).map
        (Placed.transposed interval) = s.samples.filterMap fun name =>
          (samples.find? name).map fun sample => one slot (sampleEvent v name sample) := by
    rw [List.map_filterMap]
    simp only [Option.map_map]
    rfl
  have sameOrnament : (s.transposed interval).ornament = s.ornament := rfl
  have sameSamples : (s.transposed interval).samples = s.samples := rfl
  have sameKind : (s.transposed interval).isNote = s.isNote := rfl
  simp only [starts, s.playingOrder_transposed, sameOrnament, sameSamples, sameKind, List.map_cons, List.map_nil]
  refine congrArg₂ (fun notes samples => [notes, samples]) ?_ (congrArg Figure.events played.symm)
  cases s.ornament with
  | none =>
    refine congrArg Figure.events ?_
    split
    · rw [Step.transposed, List.map_map, List.map_map]
      rfl
    · rfl
  | some shape =>
    cases shape with
    | arpeggio order spacing duration => rfl
    | strum order delay decay => exact congrArg Figure.events (strum_transposed interval v s.playingOrder ..)

theorem ends_transposed (v : Voice) (slot : Int) (s : Step) :
    ends v slot (s.transposed interval) = (ends v slot s).map (Placed.transposed interval) := by
  have sameKind : (s.transposed interval).isNote = s.isNote := rfl
  unfold ends
  rw [sameKind]
  split
  · rw [Step.transposed, List.map_map, List.map_map]
    rfl
  · rfl

theorem stepFigures_transposed (slot : Int) (s : Step) (move : Step → Int) (following : List Step) :
    stepFigures samples floor channel slot (s.transposed interval) (Measure.transposed move following) =
      (stepFigures samples floor channel slot s following).map (Figure.transposed interval) := by
  have sameLength : soundingLength (s.transposed interval) (Measure.transposed move following) =
      soundingLength s following := by
    unfold soundingLength
    rw [MusicalSection.tiedLength_transposed]
    rfl
  have messages : (s.messages.map fun message => one slot (message.event channel)).map
      (Placed.transposed interval) = s.messages.map fun message => one slot (message.event channel) := by
    rw [List.map_map]
    refine List.map_congr_left fun message _ => ?_
    cases message <;> rfl
  have starting (slow : Bool) (v : Voice) (length : Int) :
      (if slow then [] else starts samples floor v slot length (s.transposed interval)) =
        (if slow then [] else starts samples floor v slot length s).map (Figure.transposed interval) := by
    rw [starts_transposed]
    cases slow <;> rfl
  have ending (slow : Bool) (v : Voice) :
      (if slow then [] else ends v slot (s.transposed interval)) =
        (if slow then [] else ends v slot s).map (Placed.transposed interval) := by
    rw [ends_transposed]
    cases slow <;> rfl
  unfold stepFigures
  dsimp only
  rw [sameLength, starting, ending, List.map_append, List.map_cons, Figure.transposed, messages]
  rfl

theorem gives_of_mem_stepFigures {slot : Int} {s : Step} {following : List Step} :
    ∀ f ∈ stepFigures samples floor channel slot s following, ∀ p ∈ f.placed, ∀ e ∈ p.events,
      Gives samples floor channel s e := by
  intro f member p placed
  simp only [stepFigures, List.cons_append, List.mem_cons, List.mem_append, List.not_mem_nil, or_false] at member
  rcases member with rfl | starting | rfl
  · obtain ⟨m, ordered, rfl⟩ := List.mem_map.1 placed
    exact List.forall_mem_singleton.2 (.message ordered)
  · split at starting
    · simp at starting
    next sounds =>
      have clean : s.isError = false := (Bool.or_eq_false_iff.1 (Bool.eq_false_iff.2 sounds)).2
      have started : p ∈ startsOf samples floor channel (soundingLength s following) ⟨slot, s⟩ := by
        rw [startsOf, clean]
        exact List.mem_flatMap.2 ⟨f, starting, placed⟩
      exact gives_of_mem_startsOf started
  · dsimp only [Figure.placed] at placed
    split at placed
    · simp at placed
    next free =>
      have clean : s.isError = false := (Bool.or_eq_false_iff.1 (Bool.eq_false_iff.2 free)).2
      have ended : p ∈ endsOf channel ⟨slot, s⟩ := by
        rw [endsOf, clean]
        exact placed
      exact gives_of_mem_endsOf ended

def Onset.transposed (move : Step → Int) (o : Onset) : Onset := { o with step := o.step.transposed (move o.step) }

theorem measureOnsets_transposed (move : Step → Int) (slot : Int) (measure : Measure) :
    measureOnsets slot (measure.transposed move) = (measureOnsets slot measure).map (Onset.transposed move) := by
  induction measure generalizing slot with
  | nil => rfl
  | cons step rest ih => exact congrArg (_ :: ·) (ih _)

theorem onsets_transposed (move : Step → Int) (stepsPerMeasure slot : Int) (measures : List Measure) :
    onsets stepsPerMeasure slot (measures.map (Measure.transposed move)) =
      (onsets stepsPerMeasure slot measures).map (Onset.transposed move) := by
  induction measures generalizing slot with
  | nil => rfl
  | cons measure rest ih =>
    rw [List.map_cons, onsets, onsets, measureOnsets_transposed, ih, List.map_append]

theorem onsetFigures_transposed_cons (move : Step → Int) (o : Onset) (later : List Onset) :
    onsetFigures samples floor channel ((o :: later).map (Onset.transposed move)) =
      (stepFigures samples floor channel o.slot o.step (later.map Onset.step)).map
          (Figure.transposed (move o.step)) ++
        onsetFigures samples floor channel (later.map (Onset.transposed move)) := by
  have following : (later.map (Onset.transposed move)).map Onset.step =
      Measure.transposed move (later.map Onset.step) := by
    rw [Measure.transposed, List.map_map, List.map_map]
    rfl
  rw [← stepFigures_transposed _ _ _ move, List.map_cons, onsetFigures, following]
  rfl

variable (c : Score) (shift : Shift) (s : MusicalSection)

theorem instrumentFigures_transposed (i : Instrument) :
    instrumentFigures (c.transposed shift) floor (s.transposed shift) i =
      onsetFigures c.samples floor i.channel ((instrumentOnsets c s i).map (Onset.transposed (shift i.name))) := by
  rw [instrumentFigures, measuresFigures_eq, MusicalSection.measuresOf_transposed, onsets_transposed]
  rfl

theorem nominalLength_transposed : nominalLength (c.transposed shift) (s.transposed shift) = nominalLength c s := by
  rw [nominalLength, MusicalSection.length_transposed]
  rfl

theorem playedSections_transposed :
    playedSections (c.transposed shift) = (playedSections c).map (MusicalSection.transposed shift) := by
  have found (name : Text) : (c.transposed shift).section? name =
      (c.section? name).map (MusicalSection.transposed shift) := by
    rw [Score.section?, Score.transposed, List.find?_map]
    rfl
  simp only [playedSections, found, List.map_filterMap]
  refine List.filterMap_congr fun item _ => ?_
  split <;> rfl

end Performance

end ScoreScript
