import ScoreScript.Proofs.Controlled
import ScoreScript.Proofs.Events

set_option autoImplicit false

namespace ScoreScript

namespace Event

def isMessage (e : Event) : Bool := e.kind = .controlChange || e.kind = .programChange

def muted (e : Event) : Event := { e with velocity := 0, volume := 0 }

def sounds (events : List Event) : List Event := (events.filter (!·.isMessage)).map muted

end Event

namespace Performance

open Placed

def soundEntries (placed : List Placed) : List (Int × Event) :=
  ((placed.flatMap entries).filter (!·.2.isMessage)).map fun entry => (entry.1, entry.2.muted)

@[simp] theorem soundEntries_append (first second : List Placed) :
    soundEntries (first ++ second) = soundEntries first ++ soundEntries second := by
  simp [soundEntries]

@[simp] theorem soundEntries_cons_one (slot : Int) (e : Event) (rest : List Placed) :
    soundEntries (.one slot e :: rest) =
      (if e.isMessage then [] else [(slot, e.muted)]) ++ soundEntries rest := by
  cases isMessage : e.isMessage <;> simp [soundEntries, entries, one, isMessage]

theorem soundEntries_flatMap {α : Type} (items : List α) (placed : α → List Placed) :
    soundEntries (items.flatMap placed) = items.flatMap fun item => soundEntries (placed item) := by
  induction items with
  | nil => rfl
  | cons item rest ih => simp only [List.flatMap_cons, soundEntries_append, ih]

theorem isMessage_muted (e : Event) : e.muted.isMessage = e.isMessage := rfl

theorem soundEntries_one_congr {slot : Int} {e other : Event} (alike : e.muted = other.muted)
    {rest later : List Placed} (after : soundEntries rest = soundEntries later) :
    soundEntries (.one slot e :: rest) = soundEntries (.one slot other :: later) := by
  have kinds : e.isMessage = other.isMessage := by
    rw [← isMessage_muted, alike, isMessage_muted]
  simp only [soundEntries_cons_one, alike, kinds, after]

theorem soundEntries_map_one {α : Type} {items : List α} {slot : Int} {event other : α → Event}
    (alike : ∀ item, (event item).muted = (other item).muted) :
    soundEntries (items.map fun item => .one slot (event item)) =
      soundEntries (items.map fun item => .one slot (other item)) := by
  induction items with
  | nil => rfl
  | cons item rest ih => exact soundEntries_one_congr (alike item) ih

section

variable {samples : Table Sample} {floor channel velocity other : Int}

theorem soundEntries_arpeggio (notes : List Int) (spacing duration stop : Int) (k : Nat) (slot : Int) :
    soundEntries (arpeggio ⟨channel, velocity⟩ notes spacing duration stop k slot) =
      soundEntries (arpeggio ⟨channel, other⟩ notes spacing duration stop k slot) := by
  fun_induction arpeggio ⟨channel, velocity⟩ notes spacing duration stop k slot with
  | case1 k slot ongoing missing => rw [arpeggio, dif_pos ongoing, missing]
  | case2 k slot ongoing note found ih =>
    conv_rhs => rw [arpeggio, dif_pos ongoing, found]
    apply soundEntries_one_congr rfl
    exact soundEntries_one_congr rfl ih
  | case3 k slot ended => rw [arpeggio, dif_neg ended]

theorem soundEntries_strum (notes : List Int) (delay decay slot : Int) :
    soundEntries (strum ⟨channel, velocity⟩ notes delay decay floor slot) =
      soundEntries (strum ⟨channel, other⟩ notes delay decay floor slot) := by
  have go (velocity other : Int) (k : Nat) :
      soundEntries (strum.go delay decay floor slot ⟨channel, velocity⟩ k notes) =
        soundEntries (strum.go delay decay floor slot ⟨channel, other⟩ k notes) := by
    induction notes generalizing velocity other k with
    | nil => rfl
    | cons note rest ih =>
      rw [strum.go, strum.go]
      apply soundEntries_one_congr rfl
      exact ih _ _ (k + 1)
  exact go velocity other 0

theorem soundEntries_samples (slot : Int) (names : List Text) :
    soundEntries (names.filterMap fun name =>
        (samples.find? name).map fun sample => .one slot (sampleEvent ⟨channel, velocity⟩ name sample)) =
      soundEntries (names.filterMap fun name =>
        (samples.find? name).map fun sample => .one slot (sampleEvent ⟨channel, other⟩ name sample)) := by
  induction names with
  | nil => rfl
  | cons name rest ih =>
    cases found : samples.find? name with
    | none => simpa [found] using ih
    | some sample =>
      simp only [List.filterMap_cons, found, Option.map_some]
      exact soundEntries_one_congr rfl ih

@[simp] theorem soundEntries_messagesOf (o : Onset) : soundEntries (messagesOf channel o) = [] := by
  unfold messagesOf
  induction o.step.messages with
  | nil => rfl
  | cons message rest ih =>
    rw [List.map_cons, soundEntries_cons_one, ih]
    cases message <;> rfl

theorem soundEntries_starts (slot length : Int) (step : Step) :
    soundEntries ((starts samples floor ⟨channel, velocity⟩ slot length step).flatMap Figure.placed) =
      soundEntries ((starts samples floor ⟨channel, other⟩ slot length step).flatMap Figure.placed) := by
  simp only [starts, List.flatMap_cons, List.flatMap_nil, List.append_nil, soundEntries_append]
  congr 1
  · cases step.ornament with
    | none =>
      cases step.isNote with
      | true => exact soundEntries_map_one fun _ => rfl
      | false => rfl
    | some shape =>
      cases shape with
      | arpeggio order spacing duration => exact soundEntries_arpeggio _ _ _ _ _ _
      | strum order delay decay => exact soundEntries_strum _ _ _ _
  · exact soundEntries_samples slot step.samples

theorem soundEntries_startsOf (length slot : Int) (step : Step) (messages : List ControlMessage) :
    soundEntries (startsOf samples floor channel length ⟨slot, { step with velocity, messages }⟩) =
      soundEntries (startsOf samples floor channel length ⟨slot, step⟩) := by
  change soundEntries (if step.isError then [] else
      (starts samples floor ⟨channel, clampData velocity⟩ slot length step).flatMap Figure.placed) =
    soundEntries (if step.isError then [] else
      (starts samples floor ⟨channel, clampData step.velocity⟩ slot length step).flatMap Figure.placed)
  split
  · rfl
  · exact soundEntries_starts slot length step

theorem soundEntries_endsOf (slot : Int) (step : Step) (messages : List ControlMessage) :
    soundEntries (endsOf channel ⟨slot, { step with velocity, messages }⟩) =
      soundEntries (endsOf channel ⟨slot, step⟩) := by
  change soundEntries (if step.isError then [] else ends ⟨channel, clampData velocity⟩ slot step) =
    soundEntries (if step.isError then [] else ends ⟨channel, clampData step.velocity⟩ slot step)
  unfold ends
  split
  · rfl
  · split
    · exact soundEntries_map_one fun _ => rfl
    · rfl

inductive Carries : List Onset → List Onset → Prop where
  | nil : Carries [] []
  | keep {o next : Onset} {row after : List Onset} (slot : next.slot = o.slot)
    (same : next.step.bare = o.step.bare) (rest : Carries row after) : Carries (o :: row) (next :: after)
  | carrier {next : Onset} {row after : List Onset} (silent : next.step.IsCarrier)
    (rest : Carries row after) : Carries row (next :: after)

variable {row after : List Onset}

theorem tiedLength_of_free {step : Step} (free : step.tiesForward = false) (row : List Step) :
    MusicalSection.tiedLength (step :: row) = step.length := by
  cases row <;> simp [MusicalSection.tiedLength, free]

theorem Carries.tiedLength {o next : Onset} (same : next.step.bare = o.step.bare)
    (carries : Carries row after)
    (agrees : ((next :: after).map Onset.step).IsChain (Step.Agrees Step.tone)) :
    MusicalSection.tiedLength ((next :: after).map Onset.step) =
      MusicalSection.tiedLength ((o :: row).map Onset.step) := by
  have length : next.step.length = o.step.length := (congrArg Step.length same :)
  have ties : next.step.tiesForward = o.step.tiesForward := (congrArg Step.tiesForward same :)
  induction carries generalizing o next with
  | nil => exact length
  | @keep p q row after slot sameRest rest ih =>
    have tail := ih sameRest (List.isChain_cons_cons.1 agrees).2 (congrArg Step.length sameRest :)
      (congrArg Step.tiesForward sameRest :)
    have backward : q.step.tiesBackward = p.step.tiesBackward := (congrArg Step.tiesBackward sameRest :)
    simp only [List.map_cons, MusicalSection.tiedLength] at tail ⊢
    rw [tail, length, ties, backward]
  | @carrier q row after silent rest ih =>
    -- a carrier is not tied to the step before it
    have free : next.step.tiesForward = false :=
      (List.isChain_cons_cons.1 agrees).1.1.trans (congrArg Step.tiesBackward silent)
    simp only [List.map_cons]
    rw [tiedLength_of_free free, tiedLength_of_free (ties.symm.trans free), length]

theorem soundEntries_carrier {o : Onset} (silent : o.step.IsCarrier) (rest : List Onset) :
    soundEntries (onsetPlaced samples floor channel (o :: rest)) =
      soundEntries (onsetPlaced samples floor channel rest) := by
  obtain ⟨slot, step⟩ := o
  have none : step.ornament = none := congrArg Step.ornament silent
  have kind : step.kind = .silence := congrArg Step.kind silent
  have unsampled : step.samples = [] := congrArg Step.samples silent
  have mute : step.isNote = false := by simp [Step.isNote, kind]
  simp [onsetPlaced_cons, startsOf, endsOf, starts, ends, none, unsampled, mute, Figure.placed]

theorem Carries.soundEntries_eq (carries : Carries row after)
    (agrees : (after.map Onset.step).IsChain (Step.Agrees Step.tone)) :
    soundEntries (onsetPlaced samples floor channel after) =
      soundEntries (onsetPlaced samples floor channel row) := by
  induction carries with
  | nil => rfl
  | @keep o next row after slot same rest ih =>
    have later := ih (List.IsChain.tail agrees)
    have length := rest.tiedLength same agrees
    have backward : next.step.tiesBackward = o.step.tiesBackward := (congrArg Step.tiesBackward same :)
    have forward : next.step.tiesForward = o.step.tiesForward := (congrArg Step.tiesForward same :)
    obtain ⟨place, step⟩ := o
    obtain ⟨_, changed⟩ := next
    obtain rfl : _ = place := slot
    have alike := Step.eq_of_bare same
    dsimp only at alike backward forward
    simp only [onsetPlaced_cons, soundEntries_append, soundEntries_messagesOf, length, backward, forward,
      later]
    rw [alike]
    congr 2
    · split
      · rfl
      · exact soundEntries_startsOf _ _ _ _
    · split
      · rfl
      · exact soundEntries_endsOf _ _ _
  | carrier silent rest ih =>
    rw [soundEntries_carrier silent]
    exact ih (List.IsChain.tail agrees)

theorem carries_measure {measure changed : Measure} (same : changed.map Step.bare = measure.map Step.bare)
    (slot : Int) (later : Carries row after) :
    Carries (measureOnsets slot measure ++ row) (measureOnsets slot changed ++ after) := by
  induction measure generalizing changed slot with
  | nil =>
    obtain rfl : changed = [] := List.map_eq_nil_iff.1 same
    exact later
  | cons step rest ih =>
    obtain ⟨next, more, rfl, here, tail⟩ := List.map_eq_cons_iff.1 same
    have length : next.length = step.length := (congrArg Step.length here :)
    rw [measureOnsets, measureOnsets, length]
    exact .keep rfl here (ih tail (slot + step.length))

theorem carries_kept {ordered : ControlMessage → Prop} {measure changed : Measure}
    (kept : Measure.Kept ordered measure changed) (slot : Int) (later : Carries row after) :
    Carries (measureOnsets slot measure ++ row) (measureOnsets slot changed ++ after) := by
  cases kept with
  | steps same => exact carries_measure same slot later
  | carrier here silent => exact .carrier silent later

theorem carries_onsets {ordered : Nat → ControlMessage → Prop} {old new : List Measure}
    (controlled : Measure.Controlled ordered old new) (stepsPerMeasure slot : Int) :
    Carries (onsets stepsPerMeasure slot old) (onsets stepsPerMeasure slot new) := by
  have kept := controlled.kept
  rcases controlled.count with same | ⟨rfl, one⟩
  · clear controlled
    induction old generalizing ordered new slot with
    | nil =>
      obtain rfl : new = [] := List.length_eq_zero_iff.1 same
      exact .nil
    | cons measure rest ih =>
      obtain ⟨changed, more, rfl⟩ := List.exists_cons_of_length_eq_add_one same
      have here : Measure.Kept (ordered 0) measure changed := kept 0 changed rfl
      apply carries_kept here
      have later : ∀ m measure, more[m]? = some measure →
          Measure.Kept (ordered (m + 1)) ((rest[m]?).getD []) measure := fun m => kept (m + 1)
      exact ih (slot + stepsPerMeasure) later (by simpa using same)
  · obtain ⟨measure, rfl⟩ := List.length_eq_one_iff.1 one
    have here : Measure.Kept (ordered 0) [] measure := kept 0 measure rfl
    exact carries_kept here slot .nil

theorem isMessage_of_gives {step : Step} {e : Event} (gives : Gives samples floor channel step e)
    (silent : step.messages = []) : e.isMessage = false := by
  cases gives with
  | message ordered =>
    rw [silent] at ordered
    cases ordered
  | noteOn | noteOff | strummed | sample => rfl

theorem isMessage_of_mem_startsOf {length : Int} {o : Onset} {p : Placed}
    (member : p ∈ startsOf samples floor channel length o) : ∀ e ∈ p.events, e.isMessage = false := by
  -- what starts with a step is read off the step without its messages
  have bare : p ∈ startsOf samples floor channel length ⟨o.slot, { o.step with messages := [] }⟩ :=
    member
  exact fun e inEvents => isMessage_of_gives (gives_of_mem_startsOf bare e inEvents) rfl

theorem isMessage_of_mem_endsOf {o : Onset} {p : Placed} (member : p ∈ endsOf channel o) :
    ∀ e ∈ p.events, e.isMessage = false := by
  have bare : p ∈ endsOf channel ⟨o.slot, { o.step with messages := [] }⟩ := member
  exact fun e inEvents => isMessage_of_gives (@gives_of_mem_endsOf [] 0 _ _ _ bare e inEvents) rfl

theorem mem_messagesOf_of_isMessage {p : Placed} (member : p ∈ onsetPlaced samples floor channel row)
    {e : Event} (inEvents : e ∈ p.events) (isMessage : e.isMessage = true) :
    ∃ o ∈ row, ∃ message ∈ o.step.messages, p.slot = o.slot ∧ e = message.event channel := by
  induction row with
  | nil => simp [onsetPlaced, onsetFigures] at member
  | cons o later ih =>
    rw [onsetPlaced_cons] at member
    simp only [List.mem_append] at member
    rcases member with ((message | start) | ending) | rest
    · obtain ⟨m, ordered, rfl⟩ := List.mem_map.1 message
      exact ⟨o, by simp, m, ordered, rfl, List.mem_singleton.1 inEvents⟩
    · split at start
      · cases start
      · rw [isMessage_of_mem_startsOf start e inEvents] at isMessage
        cases isMessage
    · split at ending
      · cases ending
      · rw [isMessage_of_mem_endsOf ending e inEvents] at isMessage
        cases isMessage
    · obtain ⟨other, inLater, found⟩ := ih rest
      exact ⟨other, by simp [inLater], found⟩

theorem mem_measureOnsets {slot : Int} {measure : Measure} {o : Onset}
    (member : o ∈ measureOnsets slot measure) :
    ∃ n : Nat, measure[n]? = some o.step ∧ (n = 0 → o.slot = slot) := by
  induction measure generalizing slot with
  | nil => cases member
  | cons step rest ih =>
    rcases List.mem_cons.1 member with rfl | later
    · exact ⟨0, rfl, fun _ => rfl⟩
    · obtain ⟨n, found, -⟩ := ih later
      exact ⟨n + 1, found, by simp⟩

theorem mem_onsets {stepsPerMeasure slot : Int} {measures : List Measure} {o : Onset}
    (member : o ∈ onsets stepsPerMeasure slot measures) :
    ∃ (m n : Nat) (measure : Measure), measures[m]? = some measure ∧ measure[n]? = some o.step ∧
      (n = 0 → o.slot = slot + m * stepsPerMeasure) := by
  induction measures generalizing slot with
  | nil => cases member
  | cons measure rest ih =>
    rcases List.mem_append.1 member with here | later
    · obtain ⟨n, found, first⟩ := mem_measureOnsets here
      exact ⟨0, n, measure, rfl, found, by simpa using first⟩
    · obtain ⟨m, n, other, inRest, found, first⟩ := ih later
      refine ⟨m + 1, n, other, inRest, found, fun start => ?_⟩
      rw [first start, Int.natCast_add_one, Int.add_mul, Int.one_mul]
      omega

variable {c : Score} {instruments : List Instrument} {s now : MusicalSection}
  {ordered : Text → Nat → ControlMessage → Prop}

theorem soundEntries_sectionEvents (controlled : s.Controlled ordered now) (regular : now.Regular) :
    soundEntries (sectionEvents c floor now instruments) =
      soundEntries (sectionEvents c floor s instruments) := by
  rw [sectionEvents_eq, sectionEvents_eq, soundEntries_flatMap, soundEntries_flatMap]
  refine List.flatMap_congr fun i _ => ?_
  apply (carries_onsets (controlled.music i.name) c.grid.stepsPerMeasure 0).soundEntries_eq
  exact (tiedRow_instrumentOnsets regular i).agrees

theorem message_of_mem_sectionEvents (controlled : s.Controlled ordered now) {p : Placed}
    (member : p ∈ sectionEvents c floor now instruments) {e : Event} (inEvents : e ∈ p.events)
    (isMessage : e.isMessage = true) :
    ∃ i ∈ instruments, ∃ m < (now.measuresOf i.name).length, ∃ message, ordered i.name m message ∧
      p.slot = m * c.grid.stepsPerMeasure ∧ e = message.event i.channel := by
  rw [sectionEvents_eq, List.mem_flatMap] at member
  obtain ⟨i, listed, placed⟩ := member
  obtain ⟨o, inRow, message, inStep, here, same⟩ := mem_messagesOf_of_isMessage placed inEvents isMessage
  obtain ⟨m, n, measure, inSection, inMeasure, first⟩ := mem_onsets inRow
  obtain ⟨start, asked⟩ := (controlled.music i.name).messages m n measure o.step inSection inMeasure
    message inStep
  obtain ⟨inside, -⟩ := List.getElem?_eq_some_iff.1 inSection
  refine ⟨i, listed, m, inside, message, asked, ?_, same⟩
  rw [here, first start, Int.zero_add]

end

end Performance

end ScoreScript
