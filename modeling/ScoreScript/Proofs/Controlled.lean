import ScoreScript.Proofs.Filled
import ScoreScript.Proofs.Reading

set_option autoImplicit false

namespace ScoreScript

def Step.bare (s : Step) : Step := { s with velocity := 0, messages := [] }

def Step.IsCarrier (s : Step) : Prop := s.bare = ({} : Step).bare

theorem Step.eq_of_bare {s other : Step} (same : other.bare = s.bare) :
    other = { s with velocity := other.velocity, messages := other.messages } := by
  cases s
  cases other
  simp only [bare, mk.injEq] at same ⊢
  simp [same]

namespace Measure

/-- A measure before and after control lines; `ordered` are the messages that they put in front of it. -/
inductive Kept (ordered : ControlMessage → Prop) : Measure → Measure → Prop where
  | steps {old new : Measure} (same : new.map Step.bare = old.map Step.bare) : Kept ordered old new
  | carrier {step : Step} {message : ControlMessage} (here : ordered message) (silent : step.IsCarrier) :
    Kept ordered [] [step]

structure Controlled (ordered : Nat → ControlMessage → Prop) (old new : List Measure) : Prop where
  count : new.length = old.length ∨ old = [] ∧ new.length = 1
  kept : ∀ m measure, new[m]? = some measure → Kept (ordered m) ((old[m]?).getD []) measure
  messages : ∀ m n measure step, new[m]? = some measure → measure[n]? = some step →
    ∀ message ∈ step.messages, n = 0 ∧ ordered m message

variable {ordered : Nat → ControlMessage → Prop} {old new : List Measure}

theorem Controlled.refl (silent : ∀ measure ∈ old, ∀ step ∈ measure, step.messages = []) :
    Controlled ordered old old where
  count := .inl rfl
  kept m measure here := by
    rw [here]
    exact .steps rfl
  messages m n measure step here found message member := by
    rw [silent measure (List.mem_of_getElem? here) step (List.mem_of_getElem? found)] at member
    cases member

theorem Controlled.nil_of_nil (controlled : Controlled ordered old []) : old = [] := by
  rcases controlled.count with same | ⟨none, -⟩
  · exact List.length_eq_zero_iff.1 same.symm
  · exact none

theorem Controlled.singleton_nil (controlled : Controlled ordered old []) :
    Controlled ordered old [[]] where
  count := .inr ⟨controlled.nil_of_nil, rfl⟩
  kept m measure here := by
    obtain rfl : [] = measure := by simpa using List.mem_of_getElem? here
    rw [controlled.nil_of_nil]
    exact .steps rfl
  messages m n measure step here found := by
    obtain rfl : [] = measure := by simpa using List.mem_of_getElem? here
    cases found

end Measure

namespace Score

open ScoreScript.Measure

variable {change : ControlChange} {measure : Measure}

theorem map_bare_apply (change : ControlChange) (measure : Measure) :
    (change.apply measure).map Step.bare = measure.map Step.bare ∨
      measure = [] ∧ ∃ message later, change = .messages (message :: later) ∧
        change.apply measure = [{ messages := message :: later }] := by
  cases change with
  | velocity text =>
    left
    simp [ControlChange.apply, Step.bare]
  | messages changes =>
    cases changes with
    | nil => exact .inl rfl
    | cons message later =>
      cases measure with
      | nil => exact .inr ⟨rfl, message, later, rfl, rfl⟩
      | cons step rest => exact .inl rfl

theorem kept_apply {ordered : ControlMessage → Prop} {old : Measure} (kept : Kept ordered old measure)
    (asked : ∀ messages, change = .messages messages → ∀ message ∈ messages, ordered message) :
    Kept ordered old (change.apply measure) := by
  rcases map_bare_apply change measure with same | ⟨rfl, message, later, rfl, carried⟩
  · cases kept with
    | steps kept => exact .steps (same.trans kept)
    | carrier here silent =>
      obtain ⟨next, only, bare⟩ := List.map_eq_singleton_iff.1 same
      rw [only]
      exact .carrier here (bare.trans silent)
  · rw [carried]
    cases kept with
    | steps kept =>
      obtain rfl : old = [] := List.map_eq_nil_iff.1 kept.symm
      exact .carrier (asked _ rfl message (by simp)) rfl

theorem messages_apply {n : Nat} {step : Step} (found : (change.apply measure)[n]? = some step)
    {message : ControlMessage} (member : message ∈ step.messages) :
    (∃ before, measure[n]? = some before ∧ message ∈ before.messages) ∨
      n = 0 ∧ ∃ messages, change = .messages messages ∧ message ∈ messages := by
  cases change with
  | velocity text =>
    rw [ControlChange.apply, List.getElem?_map] at found
    obtain ⟨before, here, rfl⟩ := Option.map_eq_some_iff.1 found
    exact .inl ⟨before, here, member⟩
  | messages changes =>
    cases changes with
    | nil => exact .inl ⟨step, found, member⟩
    | cons first later =>
      cases measure with
      | nil =>
        cases n with
        | zero =>
          cases found
          exact .inr ⟨rfl, _, rfl, member⟩
        | succ n => cases found
      | cons before rest =>
        cases n with
        | zero =>
          cases found
          rcases List.mem_append.1 member with earlier | ordered
          · exact .inl ⟨before, rfl, earlier⟩
          · exact .inr ⟨rfl, _, rfl, ordered⟩
        | succ n => exact .inl ⟨step, found, member⟩

theorem controlled_mapIdx {ordered : Nat → ControlMessage → Prop} {old new : List Measure}
    (controlled : Controlled ordered old new) (has : Nat → Bool)
    (asked : ∀ messages, change = .messages messages → ∀ message ∈ messages, ∀ m, has m = true →
      ordered m message) :
    Controlled ordered old
      (new.mapIdx fun m measure => if has m then change.apply measure else measure) where
  count := by simpa using controlled.count
  kept m measure here := by
    rw [List.getElem?_mapIdx] at here
    obtain ⟨before, found, rfl⟩ := Option.map_eq_some_iff.1 here
    have kept := controlled.kept m before found
    by_cases addressed : has m = true
    · rw [if_pos addressed]
      exact kept_apply kept fun messages same message member => asked messages same message member m addressed
    · rw [if_neg addressed]
      exact kept
  messages m n measure step here found message member := by
    rw [List.getElem?_mapIdx] at here
    obtain ⟨before, inside, rfl⟩ := Option.map_eq_some_iff.1 here
    by_cases addressed : has m = true
    · rw [if_pos addressed] at found
      rcases messages_apply found member with ⟨earlier, there, old⟩ | ⟨first, messages, same, new⟩
      · exact controlled.messages m n before earlier inside there message old
      · exact ⟨first, asked messages same message new m addressed⟩
    · rw [if_neg addressed] at found
      exact controlled.messages m n before step inside found message member

end Score

namespace Table

variable {α : Type}

theorem foldr_max_insert (table : Table α) (size : α → Nat) (name : Text) (value : α)
    (grows : ∀ old ∈ table.find? name, size old ≤ size value) :
    ((table.insert name value).map fun entry => size entry.2).foldr max 0 =
      max ((table.map fun entry => size entry.2).foldr max 0) (size value) := by
  induction table with
  | nil => simp [insert]
  | cons entry rest ih =>
    obtain ⟨key, old⟩ := entry
    rw [find?_cons] at grows
    by_cases same : name = key
    · rw [if_pos same] at grows
      have larger := grows old rfl
      rw [insert, if_pos same]
      simp only [List.map_cons, List.foldr_cons]
      omega
    · rw [if_neg same] at grows
      rw [insert, if_neg same]
      simp only [List.map_cons, List.foldr_cons, ih grows]
      omega

end Table

namespace MusicalSection

structure Controlled (ordered : Text → Nat → ControlMessage → Prop) (s after : MusicalSection) :
    Prop where
  name : after.name = s.name
  music : ∀ instrument, Measure.Controlled (ordered instrument) (s.measuresOf instrument)
    (after.measuresOf instrument)
  length : 1 ≤ s.length → after.length = s.length

variable {ordered : Text → Nat → ControlMessage → Prop} {s now : MusicalSection}

theorem Controlled.refl (silent : s.AllSteps fun step => step.messages = []) : s.Controlled ordered s where
  name := rfl
  music instrument := .refl (silent instrument)
  length _ := rfl

end MusicalSection

namespace Score

open MusicalSection

theorem controlledMeasures_cases (s : MusicalSection) (instrument : Text) :
    controlledMeasures s instrument = s.measuresOf instrument ∨
      s.measuresOf instrument = [] ∧ controlledMeasures s instrument = [[]] := by
  unfold controlledMeasures
  split
  next none => exact .inr ⟨none, rfl⟩
  next => exact .inl rfl

theorem controlled_controlledMeasures {ordered : Nat → ControlMessage → Prop} {s : MusicalSection}
    {instrument : Text} {old : List Measure}
    (controlled : Measure.Controlled ordered old (s.measuresOf instrument)) :
    Measure.Controlled ordered old (controlledMeasures s instrument) := by
  rcases controlledMeasures_cases s instrument with same | ⟨none, one⟩
  · rwa [same]
  · rw [none] at controlled
    rw [one]
    exact controlled.singleton_nil

theorem length_controlledMeasures (s : MusicalSection) (instrument : Text) :
    (controlledMeasures s instrument).length = max 1 (s.measuresOf instrument).length := by
  unfold controlledMeasures
  split
  next none => simp [none]
  next measures other =>
    have present := List.length_pos_iff.2 other
    omega

theorem length_applyChange (target : ControlTarget) (change : ControlChange) {s : MusicalSection}
    (present : 1 ≤ s.length) : (applyChange target change s).length = s.length := by
  have counted := length_controlledMeasures s target.instrument
  have most := s.length_measuresOf_le target.instrument
  unfold applyChange MusicalSection.length at *
  rw [Table.foldr_max_insert]
  · rw [List.length_mapIdx]
    omega
  · intro old found
    rw [List.length_mapIdx, counted, MusicalSection.measuresOf, found]
    exact Nat.le_max_right _ _

def Ordered (c : Score) (lines : List Script.Line) (s : MusicalSection) (instrument : Text) (m : Nat)
    (message : ControlMessage) : Prop :=
  ∃ line ∈ lines, ∃ target messages, c.Asks line target (.messages messages) ∧ message ∈ messages ∧
    target.instrument = instrument ∧ target.sectionIn c = s.name ∧
    (target.range (controlledMeasures s instrument).length).has m = true

variable {c : Score} {lines : List Script.Line} {s now : MusicalSection}

theorem controlled_applyChange {line : Script.Line} (member : line ∈ lines) {target : ControlTarget}
    {change : ControlChange} (asked : c.Asks line target change) (meant : target.sectionIn c = s.name)
    (controlled : s.Controlled (c.Ordered lines s) now) :
    s.Controlled (c.Ordered lines s) (applyChange target change now) where
  name := controlled.name
  music instrument := by
    rw [applyChange, MusicalSection.measuresOf_insert]
    by_cases own : instrument = target.instrument
    · subst own
      -- as many measures can be changed as before all control lines
      have count : (controlledMeasures now target.instrument).length =
          (controlledMeasures s target.instrument).length := by
        have lengths := (controlled.music target.instrument).count
        simp only [length_controlledMeasures]
        rcases lengths with same | ⟨none, one⟩
        · rw [same]
        · rw [none, one]
          rfl
      rw [if_pos rfl]
      apply controlled_mapIdx (controlled_controlledMeasures (controlled.music _))
      rintro messages rfl message ordered m addressed
      rw [count] at addressed
      exact ⟨line, member, target, messages, asked, ordered, rfl, meant, addressed⟩
    · rw [if_neg own]
      exact controlled.music instrument
  length present := by
    have same := controlled.length present
    rw [length_applyChange target change (by omega), same]

theorem forall₂_changeSection {R : MusicalSection → MusicalSection → Prop} {name : Text}
    {change : MusicalSection → MusicalSection} {sections musical : List MusicalSection}
    (changed : ∀ s now, R s now → now.name = name → R s (change now))
    (related : List.Forall₂ R sections musical) :
    List.Forall₂ R sections (changeSection name change musical) := by
  induction related with
  | nil => exact .nil
  | cons here later ih =>
    unfold changeSection
    split
    next named => exact .cons (changed _ _ here named) later
    next => exact .cons here ih

def Controlled (c : Score) (lines : List Script.Line) (after : Score) : Prop :=
  ∃ musical, after = { c with sections := musical } ∧
    List.Forall₂ (fun s now => s.Controlled (c.Ordered lines s) now) c.sections musical

theorem controlled_readControlLine {r after : Reading} {line : Script.Line} (member : line ∈ lines)
    (controlled : c.Controlled lines r.score) (read : readControlLine r line = .ok after) :
    c.Controlled lines after.score := by
  obtain ⟨musical, same, related⟩ := controlled
  rcases readControlLine_cases read with kept | ⟨target, change, asked, made⟩
  · exact ⟨musical, kept.trans same, related⟩
  · rw [same] at asked made
    have heads : musical.head?.map (·.name) = c.sections.head?.map (·.name) := by
      generalize c.sections = sections at related
      cases related with
      | nil => rfl
      | cons here later => exact congrArg some here.name
    have meant : target.sectionIn { c with sections := musical } = target.sectionIn c := by
      rw [ControlTarget.sectionIn, heads, ControlTarget.sectionIn]
    have asked : c.Asks line target change := asked
    refine ⟨_, made, forall₂_changeSection (fun s now here named => ?_) related⟩
    apply controlled_applyChange member asked _ here
    rw [← meant, ← named, here.name]

theorem controlled_readControl {r after : Reading} {control : Option Script.Section}
    (silent : ∀ s ∈ r.score.sections, s.AllSteps fun step => step.messages = [])
    (read : readControl r control = .ok after) :
    r.score.Controlled ((control.map Script.Section.lines).getD []) after.score := by
  have start : r.score.Controlled ((control.map Script.Section.lines).getD []) r.score :=
    ⟨_, rfl, List.forall₂_same.2 fun s member => .refl (silent s member)⟩
  cases control with
  | none =>
    cases read
    exact start
  | some control =>
    exact Fault.foldlM_invariant_of_mem (fun (now : Reading) => r.score.Controlled control.lines now.score)
      (fun line member _ _ before here => controlled_readControlLine member before here) start read

end Score

end ScoreScript
