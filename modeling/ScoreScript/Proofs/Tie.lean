import Mathlib.Data.List.Chain
import ScoreScript.Step

set_option autoImplicit false

namespace ScoreScript

namespace Step

def essence (s : Step) : Step :=
  { s with messages := [], length := 1, tiesForward := false, tiesBackward := false }

def tone (s : Step) : Kind × List Int × Option Diagnostic.Kind × Option Ornament :=
  (s.kind, s.pitches, s.error, s.ornament)

def IgnoresTies {α : Type} (view : Step → α) : Prop :=
  ∀ (s : Step) (messages : List ControlMessage) (length : Int) (forward backward : Bool),
    view { s with messages, length, tiesForward := forward, tiesBackward := backward } = view s

theorem essence_ignoresTies : IgnoresTies essence := fun _ _ _ _ _ => rfl

theorem tone_ignoresTies : IgnoresTies tone := fun _ _ _ _ _ => rfl

end Step

namespace Measure

variable {α : Type} (view : Step → α)

def takenOver (measure : Measure) : Option α :=
  (measure.head?.filter (·.tiesBackward)).map view

def handedOn (measure : Measure) : Option α :=
  (measure.getLast?.filter (·.tiesForward)).map view

def pending (measures : List Measure) : Option α := measures.getLast?.bind (handedOn view)

structure TiesAtEnds (measure : Measure) : Prop where
  backward : ∀ step ∈ measure.tail, step.tiesBackward = false
  forward : ∀ step ∈ measure.dropLast, step.tiesForward = false

structure TiedBars (measures : List Measure) : Prop where
  ends : ∀ measure ∈ measures, TiesAtEnds measure
  bars : measures.IsChain fun before after => handedOn view before = takenOver view after
  start : ∀ measure ∈ measures.head?, takenOver view measure = none

/-- Every tie has two ends that agree: a step ties backward only as the first of a measure after one
that ends in a step tied forward, and forward only as the last of a measure before one that begins
with a step tied backward. -/
structure WellTied (measures : List Measure) : Prop extends TiedBars view measures where
  finish : pending view measures = none

instance (measure : Measure) : Decidable (TiesAtEnds measure) :=
  decidable_of_iff
    ((∀ step ∈ measure.tail, step.tiesBackward = false) ∧
      ∀ step ∈ measure.dropLast, step.tiesForward = false)
    ⟨fun ends => ⟨ends.1, ends.2⟩, fun ends => ⟨ends.backward, ends.forward⟩⟩

instance [DecidableEq α] (measures : List Measure) : Decidable (WellTied view measures) :=
  decidable_of_iff
    ((∀ measure ∈ measures, TiesAtEnds measure) ∧
      (measures.IsChain fun before after => handedOn view before = takenOver view after) ∧
      (∀ measure ∈ measures.head?, takenOver view measure = none) ∧ pending view measures = none)
    ⟨fun ⟨ends, bars, start, finish⟩ => ⟨⟨ends, bars, start⟩, finish⟩,
      fun tied => ⟨tied.ends, tied.bars, tied.start, tied.finish⟩⟩

variable {view}

theorem tiedBars_nil : TiedBars view [] :=
  ⟨by simp, .nil, by simp⟩

theorem tiedBars_concat {earlier : List Measure} {measure : Measure} :
    TiedBars view (earlier ++ [measure]) ↔
      TiedBars view earlier ∧ TiesAtEnds measure ∧ pending view earlier = takenOver view measure := by
  constructor
  · rintro ⟨ends, bars, start⟩
    obtain ⟨chain, -, bar⟩ := List.isChain_append.1 bars
    -- the new measure is the first one, or there is a bar before it
    cases last : earlier.getLast? with
    | none =>
      obtain rfl := List.getLast?_eq_none_iff.1 last
      have first := start measure (by simp)
      exact ⟨tiedBars_nil, ends _ (by simp), first.symm⟩
    | some before =>
      have present : earlier ≠ [] := by rintro rfl; simp at last
      have joined := bar before last measure (by simp)
      refine ⟨⟨fun m member => ends m (by simp [member]), chain, fun m first => start m ?_⟩,
        ends _ (by simp), by rw [pending, last]; exact joined⟩
      rwa [List.head?_append_of_ne_nil _ present]
  · rintro ⟨⟨ends, bars, start⟩, inner, joined⟩
    refine ⟨?_, List.isChain_append.2 ⟨bars, .singleton _, ?_⟩, ?_⟩
    · intro m member
      rcases List.mem_append.1 member with earlierMember | only
      · exact ends m earlierMember
      · rwa [List.mem_singleton.1 only]
    · intro before last after only
      obtain rfl : measure = after := by simpa using only
      rw [← joined, pending, Option.mem_def.1 last]
      rfl
    · intro m first
      cases earlier with
      | nil =>
        obtain rfl : measure = m := by simpa using first
        exact joined.symm
      | cons head rest => exact start m (by simpa using first)

@[simp] theorem pending_concat (earlier : List Measure) (measure : Measure) :
    pending view (earlier ++ [measure]) = handedOn view measure := by
  simp [pending]

theorem wellTied_concat {earlier : List Measure} {measure : Measure} :
    WellTied view (earlier ++ [measure]) ↔
      TiedBars view earlier ∧ TiesAtEnds measure ∧ pending view earlier = takenOver view measure ∧
        handedOn view measure = none := by
  constructor
  · rintro ⟨tied, finish⟩
    obtain ⟨before, inner, joined⟩ := tiedBars_concat.1 tied
    exact ⟨before, inner, joined, by simpa using finish⟩
  · rintro ⟨before, inner, joined, finish⟩
    exact ⟨tiedBars_concat.2 ⟨before, inner, joined⟩, by simpa using finish⟩

theorem wellTied_concat_nil {measures : List Measure} :
    WellTied view (measures ++ [[]]) ↔ WellTied view measures := by
  rw [wellTied_concat]
  constructor
  · rintro ⟨tied, -, finish, -⟩
    exact ⟨tied, finish⟩
  · rintro ⟨tied, finish⟩
    exact ⟨tied, ⟨by simp, by simp⟩, finish, rfl⟩

theorem TiesAtEnds.not_forward {measure : Measure} (inner : TiesAtEnds measure)
    (finish : handedOn view measure = none) : ∀ step ∈ measure, step.tiesForward = false := by
  intro step member
  rcases List.eq_nil_or_concat' measure with rfl | ⟨front, last, rfl⟩
  · simp at member
  · rcases List.mem_append.1 member with inFront | only
    · exact inner.forward step (by simpa using inFront)
    · obtain rfl := List.mem_singleton.1 only
      cases forward : step.tiesForward with
      | false => rfl
      | true => simp [handedOn, forward, Option.filter] at finish

theorem WellTied.concat_step {earlier : List Measure} {steps : Measure} {step : Step}
    (tied : WellTied view (earlier ++ [steps])) (backward : step.tiesBackward = false)
    (forward : step.tiesForward = false) : WellTied view (earlier ++ [steps ++ [step]]) := by
  obtain ⟨before, inner, joined, finish⟩ := wellTied_concat.1 tied
  refine wellTied_concat.2 ⟨before, ⟨?_, ?_⟩, ?_, ?_⟩
  · cases steps with
    | nil => simp
    | cons head rest =>
      intro s member
      rcases List.mem_append.1 member with inRest | only
      · exact inner.backward s inRest
      · rwa [List.mem_singleton.1 only]
  · rw [List.dropLast_concat]
    exact inner.not_forward finish
  · rw [joined]
    cases steps with
    | nil => simp [takenOver, backward, Option.filter]
    | cons head rest => rfl
  · simp [handedOn, forward, Option.filter]

theorem WellTied.hold {before : List Measure} {steps : Measure} {last next : Step}
    (tied : WellTied view (before ++ [steps ++ [last]]))
    (agree : view { last with tiesForward := true } = view last) (same : view next = view last)
    (backward : next.tiesBackward = true) (forward : next.tiesForward = false) :
    WellTied view (before ++ [steps ++ [{ last with tiesForward := true }]] ++ [[next]]) := by
  obtain ⟨kept, inner, joined, -⟩ := wellTied_concat.1 tied
  have ends : TiesAtEnds (steps ++ [{ last with tiesForward := true }]) := by
    refine ⟨?_, by simpa using inner.forward⟩
    cases steps with
    | nil => simp
    | cons head rest => simpa [or_imp, forall_and] using inner.backward
  have taken : takenOver view (steps ++ [{ last with tiesForward := true }]) =
      takenOver view (steps ++ [last]) := by
    cases steps with
    | nil =>
      cases back : last.tiesBackward with
      | false => simp [takenOver, Option.filter, back]
      | true => simpa [takenOver, Option.filter, back] using agree
    | cons head rest => rfl
  refine wellTied_concat.2 ⟨tiedBars_concat.2 ⟨kept, ends, joined.trans taken.symm⟩,
    ⟨by simp, by simp⟩, ?_, ?_⟩
  · simp [handedOn, takenOver, Option.filter, agree, same, backward]
  · simp [handedOn, Option.filter, forward]

def BackwardAtBars (measures : List Measure) : Prop :=
  ∀ (m n : Nat) (measure : Measure) (step : Step), measures[m]? = some measure →
    measure[n]? = some step → step.tiesBackward = true →
    n = 0 ∧ ∃ (k : Nat) (before : Measure) (last : Step), m = k + 1 ∧ measures[k]? = some before ∧
      before.getLast? = some last ∧ last.tiesForward = true

def ForwardAtBars (view : Step → α) (measures : List Measure) : Prop :=
  ∀ (m n : Nat) (measure : Measure) (step : Step), measures[m]? = some measure →
    measure[n]? = some step → step.tiesForward = true →
    n + 1 = measure.length ∧ ∃ (after : Measure) (next : Step), measures[m + 1]? = some after ∧
      after[0]? = some next ∧ next.tiesBackward = true ∧ view next = view step

theorem takenOver_eq_some {measure : Measure} {value : α} :
    takenOver view measure = some value ↔
      ∃ step, measure[0]? = some step ∧ step.tiesBackward = true ∧ view step = value := by
  cases measure <;> simp [takenOver, Option.filter]

theorem handedOn_eq_some {measure : Measure} {value : α} :
    handedOn view measure = some value ↔
      ∃ step, measure.getLast? = some step ∧ step.tiesForward = true ∧ view step = value := by
  cases last : measure.getLast? <;> simp [handedOn, last, Option.filter]

theorem WellTied.bar {measures : List Measure} (tied : WellTied view measures) {k : Nat}
    {before after : Measure} (here : measures[k]? = some before)
    (there : measures[k + 1]? = some after) : handedOn view before = takenOver view after := by
  obtain ⟨inside, rfl⟩ := List.getElem?_eq_some_iff.1 there
  obtain ⟨_, rfl⟩ := List.getElem?_eq_some_iff.1 here
  exact tied.bars.getElem k inside

theorem WellTied.backwardAtBars {measures : List Measure} (tied : WellTied view measures) :
    BackwardAtBars measures := by
  intro m n measure step here found backward
  cases n with
  | succ n =>
    have inTail : step ∈ measure.tail := List.mem_of_getElem? (i := n) (by simpa using found)
    simp [(tied.ends measure (List.mem_of_getElem? here)).backward step inTail] at backward
  | zero =>
    have taken : takenOver view measure = some (view step) :=
      takenOver_eq_some.2 ⟨step, found, backward, rfl⟩
    cases m with
    | zero => simp [tied.start measure (by simpa [List.head?_eq_getElem?] using here)] at taken
    | succ k =>
      obtain ⟨inside, -⟩ := List.getElem?_eq_some_iff.1 here
      have before := List.getElem?_eq_getElem (l := measures) (i := k) (by omega)
      obtain ⟨last, atEnd, forward, -⟩ := handedOn_eq_some.1 ((tied.bar before here).trans taken)
      exact ⟨rfl, k, _, last, rfl, before, atEnd, forward⟩

theorem WellTied.forwardAtBars {measures : List Measure} (tied : WellTied view measures) :
    ForwardAtBars view measures := by
  intro m n measure step here found forward
  have last : n + 1 = measure.length := by
    obtain ⟨inside, -⟩ := List.getElem?_eq_some_iff.1 found
    by_contra notLast
    have inFront : step ∈ measure.dropLast := by
      refine List.mem_of_getElem? (i := n) ?_
      rw [List.getElem?_dropLast, if_pos (by omega), found]
    simp [(tied.ends measure (List.mem_of_getElem? here)).forward step inFront] at forward
  have handed : handedOn view measure = some (view step) := by
    refine handedOn_eq_some.2 ⟨step, ?_, forward, rfl⟩
    rw [List.getLast?_eq_getElem?, ← last]
    exact found
  refine ⟨last, ?_⟩
  cases there : measures[m + 1]? with
  | none =>
    have beyond := List.getElem?_eq_none_iff.1 there
    obtain ⟨bound, -⟩ := List.getElem?_eq_some_iff.1 here
    have finish := tied.finish
    rw [pending, List.getLast?_eq_getElem?, show measures.length - 1 = m by omega, here] at finish
    simp [handed] at finish
  | some after =>
    have taken := (tied.bar here there).symm.trans handed
    obtain ⟨next, first, backward, agree⟩ := takenOver_eq_some.1 taken
    exact ⟨after, next, rfl, first, backward, agree⟩

theorem tiesAtEnds_of_atBars {measures : List Measure} (backward : BackwardAtBars measures)
    (forward : ForwardAtBars view measures) : ∀ measure ∈ measures, TiesAtEnds measure := by
  intro measure member
  obtain ⟨m, here⟩ := List.mem_iff_getElem?.1 member
  refine ⟨fun step inTail => ?_, fun step inFront => ?_⟩
  · obtain ⟨n, found⟩ := List.mem_iff_getElem?.1 inTail
    rw [List.getElem?_tail] at found
    by_contra tied
    have := (backward m (n + 1) measure step here found (by simpa using tied)).1
    omega
  · obtain ⟨n, found⟩ := List.mem_iff_getElem?.1 inFront
    rw [List.getElem?_dropLast] at found
    split at found
    · by_contra tied
      have := (forward m n measure step here found (by simpa using tied)).1
      omega
    · cases found

theorem wellTied_iff {measures : List Measure} :
    WellTied view measures ↔ BackwardAtBars measures ∧ ForwardAtBars view measures := by
  refine ⟨fun tied => ⟨tied.backwardAtBars, tied.forwardAtBars⟩, ?_⟩
  rintro ⟨backward, forward⟩
  -- what a measure hands on, there is a next one to take over
  have handed {m : Nat} {measure : Measure} {value : α} (here : measures[m]? = some measure)
      (some : handedOn view measure = some value) :
      ∃ after, measures[m + 1]? = .some after ∧ takenOver view after = .some value := by
    obtain ⟨last, atEnd, ties, rfl⟩ := handedOn_eq_some.1 some
    rw [List.getLast?_eq_getElem?] at atEnd
    obtain ⟨-, after, next, there, first, back, agree⟩ := forward m _ measure last here atEnd ties
    exact ⟨after, there, takenOver_eq_some.2 ⟨next, first, back, agree⟩⟩
  refine ⟨⟨tiesAtEnds_of_atBars backward forward, List.isChain_iff_getElem.2 fun k inside => ?_,
    fun measure first => ?_⟩, ?_⟩
  · have here := List.getElem?_eq_getElem (l := measures) (i := k) (by omega)
    have there := List.getElem?_eq_getElem (l := measures) (i := k + 1) inside
    cases out : handedOn view measures[k] with
    | some value =>
      obtain ⟨after, same, taken⟩ := handed here out
      rw [there] at same
      cases same
      exact taken.symm
    | none =>
      cases taken : takenOver view measures[k + 1] with
      | none => rfl
      | some value =>
        obtain ⟨next, first, back, -⟩ := takenOver_eq_some.1 taken
        obtain ⟨-, j, before, last, same, found, atEnd, ties⟩ := backward _ _ _ next there first back
        obtain rfl : k = j := by omega
        rw [here] at found
        cases found
        simp [handedOn_eq_some.2 ⟨last, atEnd, ties, rfl⟩] at out
  · cases taken : takenOver view measure with
    | none => rfl
    | some value =>
      obtain ⟨next, atStart, back, -⟩ := takenOver_eq_some.1 taken
      rw [List.head?_eq_getElem?] at first
      obtain ⟨-, j, -, -, impossible, -⟩ := backward 0 0 measure next first atStart back
      omega
  · cases out : pending view measures with
    | none => rfl
    | some value =>
      obtain ⟨measure, last, hands⟩ := Option.bind_eq_some_iff.1 out
      rw [List.getLast?_eq_getElem?] at last
      obtain ⟨after, there, -⟩ := handed last hands
      obtain ⟨inside, -⟩ := List.getElem?_eq_some_iff.1 there
      omega

def ties (view : Step → α) (measure : Measure) : List (Bool × Bool × α) :=
  measure.map fun s => (s.tiesForward, s.tiesBackward, view s)

theorem takenOver_eq (measure : Measure) :
    takenOver view measure = ((ties view measure).head?.filter (·.2.1)).map (·.2.2) := by
  cases measure with
  | nil => rfl
  | cons step rest => cases back : step.tiesBackward <;> simp [takenOver, ties, back, Option.filter]

theorem handedOn_eq (measure : Measure) :
    handedOn view measure = ((ties view measure).getLast?.filter (·.1)).map (·.2.2) := by
  cases last : measure.getLast? with
  | none => simp [handedOn, ties, last]
  | some step =>
    cases forward : step.tiesForward <;> simp [handedOn, ties, last, forward, Option.filter]

theorem tiesAtEnds_iff (view : Step → α) (measure : Measure) :
    TiesAtEnds measure ↔ (∀ t ∈ (ties view measure).tail, t.2.1 = false) ∧
      ∀ t ∈ (ties view measure).dropLast, t.1 = false := by
  simp only [ties, ← List.map_tail, ← List.map_dropLast, List.forall_mem_map]
  exact ⟨fun h => ⟨h.backward, h.forward⟩, fun h => ⟨h.1, h.2⟩⟩

structure Retouched (view : Step → α) (measure changed : Measure) : Prop where
  ends : TiesAtEnds measure → TiesAtEnds changed
  taken : takenOver view changed = takenOver view measure
  handed : handedOn view changed = handedOn view measure

theorem Retouched.of_ties {measure changed : Measure}
    (same : ties view changed = ties view measure) : Retouched view measure changed := by
  refine ⟨fun h => ?_, by rw [takenOver_eq, same, takenOver_eq], by rw [handedOn_eq, same, handedOn_eq]⟩
  rwa [tiesAtEnds_iff view, same, ← tiesAtEnds_iff]

theorem Retouched.refl (measure : Measure) : Retouched view measure measure := .of_ties rfl

theorem tiedBars_mapIdx {measures : List Measure} {change : Nat → Measure → Measure}
    (same : ∀ index measure, Retouched view measure (change index measure))
    (tied : TiedBars view measures) :
    TiedBars view (measures.mapIdx change) ∧
      pending view (measures.mapIdx change) = pending view measures := by
  induction measures using List.reverseRecOn with
  | nil => exact ⟨tied, rfl⟩
  | append_singleton earlier measure ih =>
    obtain ⟨before, inner, joined⟩ := tiedBars_concat.1 tied
    obtain ⟨kept, handed⟩ := ih before
    -- the index of the last measure is the number of those before it
    have here := same earlier.length measure
    rw [List.mapIdx_concat]
    refine ⟨tiedBars_concat.2 ⟨kept, here.ends inner, ?_⟩, ?_⟩
    · rw [handed, joined, here.taken]
    · rw [pending_concat, pending_concat, here.handed]

theorem WellTied.mapIdx {measures : List Measure} {change : Nat → Measure → Measure}
    (same : ∀ index measure, Retouched view measure (change index measure))
    (tied : WellTied view measures) : WellTied view (measures.mapIdx change) := by
  obtain ⟨kept, handed⟩ := tiedBars_mapIdx same tied.toTiedBars
  exact ⟨kept, handed.trans tied.finish⟩

end Measure

end ScoreScript
