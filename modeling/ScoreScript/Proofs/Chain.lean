import Mathlib.Data.List.SplitBy
import ScoreScript.Proofs.Tie
import ScoreScript.Timeline.Performance

set_option autoImplicit false

namespace ScoreScript

open ScoreScript.Measure

namespace Step

def joins (step next : Step) : Bool := step.tiesForward && next.tiesBackward

def Agrees {α : Type} (view : Step → α) (step next : Step) : Prop :=
  step.tiesForward = next.tiesBackward ∧ (step.tiesForward = true → view step = view next)

end Step

namespace Measure

variable {α : Type} {view : Step → α}

structure TiedRow (view : Step → α) (row : List Step) : Prop where
  agrees : row.IsChain (Step.Agrees view)
  start : ∀ step ∈ row.head?, step.tiesBackward = false
  finish : ∀ step ∈ row.getLast?, step.tiesForward = false

theorem takenOver_eq_none {measure : Measure} :
    takenOver view measure = none ↔ ∀ step ∈ measure.head?, step.tiesBackward = false := by
  cases measure <;> simp [takenOver, Option.filter]

theorem handedOn_eq_none {measure : Measure} :
    handedOn view measure = none ↔ ∀ step ∈ measure.getLast?, step.tiesForward = false := by
  cases last : measure.getLast? <;> simp [handedOn, last, Option.filter]

theorem TiesAtEnds.agrees {measure : Measure} (inner : TiesAtEnds measure) :
    measure.IsChain (Step.Agrees view) := by
  induction measure with
  | nil => exact .nil
  | cons step rest ih =>
    cases rest with
    | nil => exact .singleton _
    | cons next later =>
      have forward := inner.forward step (by simp)
      have backward := inner.backward next (by simp)
      refine .cons_cons ⟨forward.trans backward.symm, by simp [forward]⟩ (ih ⟨?_, ?_⟩)
      · exact fun s member => inner.backward s (List.mem_cons_of_mem _ member)
      · exact fun s member => inner.forward s (by simp [member])

theorem agrees_of_joined {row measure : Measure}
    (joined : handedOn view row = takenOver view measure) {last first : Step}
    (atEnd : last ∈ row.getLast?) (atStart : first ∈ measure.head?) :
    Step.Agrees view last first := by
  rw [handedOn, takenOver, Option.mem_def.1 atEnd, Option.mem_def.1 atStart] at joined
  cases forward : last.tiesForward <;> cases backward : first.tiesBackward <;>
    simp_all [Step.Agrees, Option.filter]

theorem TiedBars.flatten {measures : List Measure} (tied : TiedBars view measures) :
    measures.flatten.IsChain (Step.Agrees view) ∧ takenOver view measures.flatten = none ∧
      handedOn view measures.flatten = pending view measures := by
  induction measures using List.reverseRecOn with
  | nil => exact ⟨.nil, rfl, rfl⟩
  | append_singleton earlier measure ih =>
    obtain ⟨before, inner, joined⟩ := tiedBars_concat.1 tied
    obtain ⟨agrees, start, handed⟩ := ih before
    rw [pending_concat, List.flatten_append, List.flatten_singleton]
    have bar : handedOn view earlier.flatten = takenOver view measure := handed.trans joined
    have joint := List.isChain_append.2 ⟨agrees, inner.agrees, fun _ atEnd _ => agrees_of_joined bar atEnd⟩
    refine ⟨joint, ?_, ?_⟩
    -- an empty row or measure hands on what it takes over, which is nothing
    · cases row : earlier.flatten with
      | nil => rw [List.nil_append, ← bar, row]; rfl
      | cons step rest => rw [row] at start; exact start
    · cases measure with
      | nil => rw [List.append_nil, bar]; rfl
      | cons step rest => rw [handedOn, List.getLast?_append_of_ne_nil _ (by simp), handedOn]

theorem WellTied.tiedRow {measures : List Measure} (tied : WellTied view measures) :
    TiedRow view measures.flatten := by
  obtain ⟨agrees, start, handed⟩ := tied.toTiedBars.flatten
  exact ⟨agrees, takenOver_eq_none.1 start, handedOn_eq_none.1 (handed.trans tied.finish)⟩

end Measure

namespace Performance

structure Onset where
  slot : Int
  step : Step
deriving DecidableEq

namespace Onset

def finish (o : Onset) : Int := o.slot + o.step.length

def joins (o next : Onset) : Bool := o.step.joins next.step

theorem joins_iff {o next : Onset} :
    o.joins next = true ↔ o.step.tiesForward = true ∧ next.step.tiesBackward = true :=
  Bool.and_eq_true_iff

end Onset

def measureOnsets (slot : Int) : Measure → List Onset
  | [] => []
  | step :: rest => ⟨slot, step⟩ :: measureOnsets (slot + step.length) rest

def onsets (stepsPerMeasure slot : Int) : List Measure → List Onset
  | [] => []
  | measure :: rest => measureOnsets slot measure ++ onsets stepsPerMeasure (slot + stepsPerMeasure) rest

@[simp] theorem map_step_measureOnsets (slot : Int) (measure : Measure) :
    (measureOnsets slot measure).map Onset.step = measure := by
  induction measure generalizing slot with
  | nil => rfl
  | cons step rest ih => simp [measureOnsets, ih]

@[simp] theorem map_step_onsets (stepsPerMeasure slot : Int) (measures : List Measure) :
    (onsets stepsPerMeasure slot measures).map Onset.step = measures.flatten := by
  induction measures generalizing slot with
  | nil => rfl
  | cons measure rest ih => simp [onsets, ih]

theorem slot_measureOnsets {slot : Int} {measure : Measure} (long : ∀ step ∈ measure, 0 ≤ step.length)
    {o : Onset} (member : o ∈ measureOnsets slot measure) : slot ≤ o.slot := by
  induction measure generalizing slot with
  | nil => simp [measureOnsets] at member
  | cons step rest ih =>
    rcases List.mem_cons.1 member with rfl | later
    · exact Int.le_refl _
    · have here := long step (by simp)
      have := ih (fun s inRest => long s (by simp [inRest])) later
      omega

theorem slot_onsets {stepsPerMeasure slot : Int} {measures : List Measure}
    (forward : 0 ≤ stepsPerMeasure) (long : ∀ measure ∈ measures, ∀ step ∈ measure, 0 ≤ step.length)
    {o : Onset} (member : o ∈ onsets stepsPerMeasure slot measures) : slot ≤ o.slot := by
  induction measures generalizing slot with
  | nil => simp [onsets] at member
  | cons measure rest ih =>
    rcases List.mem_append.1 member with here | later
    · exact slot_measureOnsets (long measure (by simp)) here
    · have := ih (fun m inRest => long m (by simp [inRest])) later
      omega

variable (samples : Table Sample) (floor channel : Int)

def onsetFigures : List Onset → List Figure
  | [] => []
  | o :: rest =>
    stepFigures samples floor channel o.slot o.step (rest.map Onset.step) ++ onsetFigures rest

theorem onsetFigures_measure (slot : Int) (measure : Measure) (later : List Onset) :
    onsetFigures samples floor channel (measureOnsets slot measure ++ later) =
      measureFigures samples floor channel (later.map Onset.step) slot measure ++
        onsetFigures samples floor channel later := by
  induction measure generalizing slot with
  | nil => rfl
  | cons step rest ih => simp [measureOnsets, onsetFigures, measureFigures, ih]

theorem measuresFigures_eq (stepsPerMeasure slot : Int) (measures : List Measure) :
    measuresFigures samples floor channel stepsPerMeasure slot measures =
      onsetFigures samples floor channel (onsets stepsPerMeasure slot measures) := by
  induction measures generalizing slot with
  | nil => rfl
  | cons measure rest ih =>
    rw [measuresFigures, onsets, onsetFigures_measure, map_step_onsets, ih]

def chains (row : List Onset) : List (List Onset) := row.splitBy Onset.joins

structure IsWhole (chain : List Onset) : Prop where
  present : chain ≠ []
  joined : chain.IsChain fun o next => o.joins next = true
  start : ∀ o ∈ chain.head?, o.step.tiesBackward = false
  finish : ∀ o ∈ chain.getLast?, o.step.tiesForward = false

theorem ends_of_not_joins {α : Type} {view : Step → α} {o next : Onset}
    (agrees : o.step.Agrees view next.step) (free : o.joins next = false) :
    o.step.tiesForward = false ∧ next.step.tiesBackward = false := by
  have same := agrees.1
  -- the two flags are equal, so a tie would be one at both ends
  cases forward : o.step.tiesForward <;> simp_all [Onset.joins, Step.joins]

theorem isWhole_of_flatten {α : Type} {view : Step → α} {parts : List (List Onset)}
    (present : [] ∉ parts)
    (joined : ∀ part ∈ parts, part.IsChain fun o next => o.joins next = true)
    (apart : parts.IsChain fun part next =>
      ∀ o ∈ part.getLast?, ∀ after ∈ next.head?, o.joins after = false)
    (agrees : parts.flatten.IsChain fun o next => o.step.Agrees view next.step)
    (start : ∀ o ∈ parts.flatten.head?, o.step.tiesBackward = false)
    (finish : ∀ o ∈ parts.flatten.getLast?, o.step.tiesForward = false) :
    ∀ part ∈ parts, IsWhole part := by
  induction parts with
  | nil => simp
  | cons part rest ih =>
    have filled : part ≠ [] := fun empty => present (by simp [empty])
    have begins : ∀ o ∈ part.head?, o.step.tiesBackward = false := by
      rwa [List.flatten_cons, List.head?_append_of_ne_nil _ filled] at start
    cases rest with
    | nil =>
      rw [List.flatten_singleton] at finish
      exact List.forall_mem_singleton.2 ⟨filled, joined part (by simp), begins, finish⟩
    | cons next later =>
      have nextFilled : next ≠ [] := fun empty => present (by simp [empty])
      rw [List.flatten_cons] at agrees finish
      obtain ⟨-, agreesRest, bar⟩ := List.isChain_append.1 agrees
      have front : (next :: later).flatten.head? = next.head? := by
        rw [List.flatten_cons, List.head?_append_of_ne_nil _ nextFilled]
      rw [front] at bar
      -- a tie between the two parts would have joined them
      have cut (o : Onset) (last : o ∈ part.getLast?) (after : Onset) (first : after ∈ next.head?) :=
        ends_of_not_joins (bar o last after first)
          ((List.isChain_cons_cons.1 apart).1 o last after first)
      refine List.forall_mem_cons.2 ⟨⟨filled, joined part (by simp), begins, ?_⟩, ?_⟩
      · exact fun o last => (cut o last _ (List.head?_eq_some_head nextFilled)).1
      · refine ih (fun member => present (by simp [member]))
          (fun p member => joined p (List.mem_cons_of_mem _ member))
          (List.isChain_cons_cons.1 apart).2 agreesRest ?_ ?_
        · rw [front]
          exact fun after first => (cut _ (List.getLast?_eq_some_getLast filled) after first).2
        · rwa [List.getLast?_append_of_ne_nil _ (by simp [nextFilled])] at finish

theorem isWhole_of_mem_chains {α : Type} {view : Step → α} {row : List Onset}
    (tied : TiedRow view (row.map Onset.step)) : ∀ chain ∈ chains row, IsWhole chain := by
  have apart : (chains row).IsChain fun part next =>
      ∀ o ∈ part.getLast?, ∀ after ∈ next.head?, o.joins after = false := by
    refine (List.isChain_getLast_head_splitBy Onset.joins row).imp ?_
    rintro part next ⟨filled, nextFilled, free⟩ o last after first
    rw [List.getLast?_eq_some_getLast filled] at last
    rw [List.head?_eq_some_head nextFilled] at first
    rwa [← Option.some.inj last, ← Option.some.inj first]
  refine @isWhole_of_flatten _ view _ (List.nil_notMem_splitBy _ _)
    (fun _ member => List.isChain_of_mem_splitBy member) apart ?_ ?_ ?_ <;>
    rw [chains, List.flatten_splitBy]
  · exact (List.isChain_map _).1 tied.agrees
  · exact fun o first => tied.start o.step (by simpa using ⟨o, first, rfl⟩)
  · exact fun o last => tied.finish o.step (by simpa using ⟨o, last, rfl⟩)

theorem IsWhole.last_free {first : Onset} {rest : List Onset} (whole : IsWhole (first :: rest)) :
    (rest.getLastD first).step.tiesForward = false :=
  whole.finish _ (by simp [List.getLast?_cons])

theorem view_eq_of_joined {α : Type} {view : Step → α} {first : Onset} {rest : List Onset}
    (joined : (first :: rest).IsChain fun o next => o.joins next = true)
    (agrees : (first :: rest).IsChain fun o next => o.step.Agrees view next.step) :
    ∀ o ∈ rest, view o.step = view first.step := by
  induction rest generalizing first with
  | nil => simp
  | cons next later ih =>
    obtain ⟨here, joinedRest⟩ := List.isChain_cons_cons.1 joined
    obtain ⟨agree, agreesRest⟩ := List.isChain_cons_cons.1 agrees
    have same : view next.step = view first.step := (agree.2 (Onset.joins_iff.1 here).1).symm
    refine List.forall_mem_cons.2 ⟨same, fun o member => ?_⟩
    exact (ih joinedRest agreesRest o member).trans same

theorem agrees_of_mem_chains {α : Type} {view : Step → α} {row : List Onset}
    (tied : TiedRow view (row.map Onset.step)) :
    ∀ chain ∈ chains row, chain.IsChain fun o next => o.step.Agrees view next.step := by
  have agrees := (List.isChain_map _).1 tied.agrees
  rw [← List.flatten_splitBy Onset.joins row] at agrees
  exact ((List.isChain_flatten (List.nil_notMem_splitBy _ _)).1 agrees).1

theorem view_eq_of_mem_chains {α : Type} {view : Step → α} {row : List Onset}
    (tied : TiedRow view (row.map Onset.step)) {first : Onset} {rest : List Onset}
    (member : first :: rest ∈ chains row) : ∀ o ∈ rest, view o.step = view first.step :=
  view_eq_of_joined (isWhole_of_mem_chains tied _ member).joined (agrees_of_mem_chains tied _ member)

theorem mem_of_mem_chains {row chain : List Onset} (member : chain ∈ chains row) {o : Onset}
    (inChain : o ∈ chain) : o ∈ row := by
  rw [← List.flatten_splitBy Onset.joins row]
  exact List.mem_flatten.2 ⟨chain, member, inChain⟩

def chainLength (chain : List Onset) : Int := Measure.duration (chain.map Onset.step)

def messagesOf (channel : Int) (o : Onset) : List Placed :=
  o.step.messages.map fun message => .one o.slot (message.event channel)

def startsOf (length : Int) (o : Onset) : List Placed :=
  if o.step.isError then []
  else
    (starts samples floor ⟨channel, clampData o.step.velocity⟩ o.slot length o.step).flatMap
      Figure.placed

def endsOf (channel : Int) (o : Onset) : List Placed :=
  if o.step.isError then [] else ends ⟨channel, clampData o.step.velocity⟩ o.slot o.step

def chainPlaced : List Onset → List Placed
  | [] => []
  | first :: rest =>
    messagesOf channel first ++ startsOf samples floor channel (chainLength (first :: rest)) first ++
      rest.flatMap (messagesOf channel) ++ endsOf channel (rest.getLastD first)

def onsetPlaced (row : List Onset) : List Placed :=
  (onsetFigures samples floor channel row).flatMap Figure.placed

theorem tiedLength_eq_soundingLength (step : Step) (following : List Step) :
    soundingLength step following = MusicalSection.tiedLength (step :: following) := by
  unfold soundingLength
  cases forward : step.tiesForward with
  | true => rfl
  | false => cases following <;> simp [MusicalSection.tiedLength, forward]

theorem tiedLength_of_joined {first : Onset} {rest : List Onset}
    (joined : (first :: rest).IsChain fun o next => o.joins next = true)
    (free : (rest.getLastD first).step.tiesForward = false) (later : List Onset) :
    MusicalSection.tiedLength ((first :: rest ++ later).map Onset.step) =
      chainLength (first :: rest) := by
  induction rest generalizing first with
  | nil =>
    rw [List.getLastD_nil] at free
    cases later <;> simp [MusicalSection.tiedLength, chainLength, free]
  | cons next more ih =>
    obtain ⟨here, joinedRest⟩ := List.isChain_cons_cons.1 joined
    rw [List.getLastD_cons] at free
    have tail := ih joinedRest free
    simp only [List.cons_append, List.map_cons] at tail ⊢
    rw [MusicalSection.tiedLength, if_pos (by exact here), tail]
    simp [chainLength]

theorem onsetPlaced_cons (o : Onset) (later : List Onset) :
    onsetPlaced samples floor channel (o :: later) =
      messagesOf channel o ++
        (if o.step.tiesBackward then [] else startsOf samples floor channel
          (MusicalSection.tiedLength ((o :: later).map Onset.step)) o) ++
        (if o.step.tiesForward then [] else endsOf channel o) ++
        onsetPlaced samples floor channel later := by
  simp only [onsetPlaced, onsetFigures, stepFigures, tiedLength_eq_soundingLength, startsOf, endsOf,
    messagesOf]
  cases o.step.tiesBackward <;> cases o.step.tiesForward <;> cases o.step.isError <;>
    simp [Figure.placed]

theorem onsetPlaced_joined {o next : Onset} (joined : o.joins next = true) (later : List Onset) :
    onsetPlaced samples floor channel (o :: later) =
      messagesOf channel o ++
        (if o.step.tiesBackward then [] else startsOf samples floor channel
          (MusicalSection.tiedLength ((o :: later).map Onset.step)) o) ++
        onsetPlaced samples floor channel later := by
  rw [onsetPlaced_cons, if_pos (Onset.joins_iff.1 joined).1, List.append_nil]

theorem onsetPlaced_held {first : Onset} {rest : List Onset}
    (joined : (first :: rest).IsChain fun o next => o.joins next = true)
    (backward : first.step.tiesBackward = true)
    (free : (rest.getLastD first).step.tiesForward = false) (later : List Onset) :
    onsetPlaced samples floor channel (first :: rest ++ later) =
      (first :: rest).flatMap (messagesOf channel) ++ endsOf channel (rest.getLastD first) ++
        onsetPlaced samples floor channel later := by
  induction rest generalizing first with
  | nil =>
    rw [List.getLastD_nil] at free
    simp [onsetPlaced_cons, backward, free]
  | cons next more ih =>
    obtain ⟨here, joinedRest⟩ := List.isChain_cons_cons.1 joined
    rw [List.getLastD_cons] at free ⊢
    have tail := ih joinedRest (Onset.joins_iff.1 here).2 free
    rw [List.cons_append, onsetPlaced_joined _ _ _ here, if_pos backward, tail]
    simp

theorem onsetPlaced_chain {chain : List Onset} (whole : IsWhole chain) (later : List Onset) :
    onsetPlaced samples floor channel (chain ++ later) =
      chainPlaced samples floor channel chain ++ onsetPlaced samples floor channel later := by
  cases chain with
  | nil => exact absurd rfl whole.present
  | cons first rest =>
    have free := whole.last_free
    have length := tiedLength_of_joined whole.joined free later
    have start : first.step.tiesBackward = false := whole.start first rfl
    cases rest with
    | nil =>
      rw [List.getLastD_nil] at free
      rw [List.cons_append] at length ⊢
      rw [onsetPlaced_cons, length]
      simp [chainPlaced, start, free]
    | cons next more =>
      obtain ⟨here, joinedRest⟩ := List.isChain_cons_cons.1 whole.joined
      rw [List.getLastD_cons] at free
      have held := onsetPlaced_held samples floor channel joinedRest (Onset.joins_iff.1 here).2 free later
      rw [List.cons_append] at length ⊢
      rw [onsetPlaced_joined _ _ _ here, length, held]
      simp [chainPlaced, start, List.getLast?_cons]

theorem onsetPlaced_eq {α : Type} {view : Step → α} {row : List Onset}
    (tied : TiedRow view (row.map Onset.step)) :
    onsetPlaced samples floor channel row =
      (chains row).flatMap (chainPlaced samples floor channel) := by
  have whole := isWhole_of_mem_chains tied
  -- a chain plays the same whatever comes after it, so they can be taken one by one
  have parts (list : List (List Onset)) (all : ∀ chain ∈ list, IsWhole chain) :
      onsetPlaced samples floor channel list.flatten =
        list.flatMap (chainPlaced samples floor channel) := by
    induction list with
    | nil => rfl
    | cons chain rest ih =>
      rw [List.flatten_cons, onsetPlaced_chain _ _ _ (all chain (by simp)), List.flatMap_cons,
        ih fun c member => all c (by simp [member])]
  rw [← parts (chains row) whole, chains, List.flatten_splitBy]

end Performance

end ScoreScript
