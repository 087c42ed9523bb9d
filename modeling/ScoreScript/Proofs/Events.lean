import ScoreScript.Proofs.Layout

set_option autoImplicit false

namespace ScoreScript.Performance

open Placed

variable {samples : Table Sample} {floor channel : Int}

def Voice.strummed (v : Voice) (delay decay floor : Int) (k : Nat) (note : Int) : Event :=
  { Voice.noteOn ⟨v.channel, (decayVelocity · decay floor)^[k] v.velocity⟩ note with
    delay := .ofInt (k * delay) }

theorem strum_eq_mapIdx (v : Voice) (notes : List Int) (delay decay floor slot : Int) :
    strum v notes delay decay floor slot =
      notes.mapIdx fun k note => .one slot (v.strummed delay decay floor k note) := by
  have go (now : Voice) (k : Nat)
      (same : now = ⟨v.channel, (decayVelocity · decay floor)^[k] v.velocity⟩) :
      strum.go delay decay floor slot now k notes =
        notes.mapIdx fun j note => .one slot (v.strummed delay decay floor (k + j) note) := by
    induction notes generalizing now k with
    | nil => rfl
    | cons note rest ih =>
      have next (j : Nat) : k + 1 + j = k + (j + 1) := by omega
      have weaker := ih { now with velocity := decayVelocity now.velocity decay floor } (k + 1)
        (by rw [same, Function.iterate_succ_apply'])
      rw [strum.go, weaker, List.mapIdx_cons]
      simp only [next, same]
      rfl
  have whole := go v 0 rfl
  simp only [Nat.zero_add] at whole
  exact whole

theorem mem_arpeggio {v : Voice} {notes : List Int} {spacing duration stop : Int} {k : Nat} {slot : Int}
    {p : Placed} (member : p ∈ arpeggio v notes spacing duration stop k slot) :
    ∃ note ∈ notes, ∃ place, p = .one place (v.noteOn note) ∨ p = .one place (v.noteOff note) := by
  fun_induction arpeggio v notes spacing duration stop k slot with
  | case1 => simp at member
  | case2 k slot ongoing note found ih =>
    have inNotes : note ∈ notes := List.mem_of_getElem? found
    rcases List.mem_cons.1 member with rfl | member
    · exact ⟨note, inNotes, slot, .inl rfl⟩
    · rcases List.mem_cons.1 member with rfl | later
      · exact ⟨note, inNotes, slot + duration, .inr rfl⟩
      · exact ih later
  | case3 => simp at member

inductive Gives (samples : Table Sample) (floor channel : Int) (s : Step) : Event → Prop where
  | message {m : ControlMessage} (ordered : m ∈ s.messages) :
    Gives samples floor channel s (m.event channel)
  | noteOn {note : Int} (clean : s.error = none) (pitch : note ∈ s.pitches) :
    Gives samples floor channel s (Voice.noteOn ⟨channel, clampData s.velocity⟩ note)
  | noteOff {note : Int} (clean : s.error = none) (pitch : note ∈ s.pitches) :
    Gives samples floor channel s (Voice.noteOff ⟨channel, clampData s.velocity⟩ note)
  | strummed {order : List Int} {delay decay note : Int} {k : Nat} (clean : s.error = none)
    (shape : s.ornament = some (.strum order delay decay)) (place : k < order.length)
    (pitch : note ∈ s.pitches) :
    Gives samples floor channel s
      (Voice.strummed ⟨channel, clampData s.velocity⟩ delay decay floor k note)
  | sample {name : Text} {sample : Sample} :
    Gives samples floor channel s (sampleEvent ⟨channel, clampData s.velocity⟩ name sample)

theorem mem_pitches_of_mem_playingOrder {s : Step} {note : Int} (member : note ∈ s.playingOrder) :
    note ∈ s.pitches := by
  unfold Step.playingOrder at member
  split at member
  · simp at member
  · obtain ⟨number, -, found⟩ := List.mem_filterMap.1 member
    unfold Step.pitch? at found
    split at found
    · exact List.mem_of_getElem? found
    · cases found

theorem gives_of_mem_startsOf {length : Int} {o : Onset} {p : Placed}
    (member : p ∈ startsOf samples floor channel length o) :
    ∀ e ∈ p.events, Gives samples floor channel o.step e := by
  unfold startsOf at member
  split at member
  · simp at member
  next clean =>
    have clean : o.step.error = none := by simpa [Step.isError] using clean
    simp only [starts, List.flatMap_cons, List.flatMap_nil, List.append_nil, List.mem_append] at member
    rcases member with note | sample
    · cases ornament : o.step.ornament with
      | none =>
        simp only [ornament, Figure.placed] at note
        split at note
        · obtain ⟨pitch, inPitches, rfl⟩ := List.mem_map.1 note
          exact List.forall_mem_singleton.2 (.noteOn clean inPitches)
        · simp at note
      | some shape =>
        cases shape with
        | arpeggio order spacing duration =>
          simp only [ornament, Figure.placed] at note
          obtain ⟨pitch, inOrder, place, rfl | rfl⟩ := mem_arpeggio note
          · exact List.forall_mem_singleton.2 (.noteOn clean (mem_pitches_of_mem_playingOrder inOrder))
          · exact List.forall_mem_singleton.2 (.noteOff clean (mem_pitches_of_mem_playingOrder inOrder))
        | strum order delay decay =>
          simp only [ornament, Figure.placed, strum_eq_mapIdx] at note
          obtain ⟨k, inOrder, rfl⟩ := List.mem_mapIdx.1 note
          have short : o.step.playingOrder.length ≤ order.length := by
            simp only [Step.playingOrder, ornament, Ornament.order]
            exact List.length_filterMap_le ..
          exact List.forall_mem_singleton.2 (.strummed clean ornament (by omega)
            (mem_pitches_of_mem_playingOrder (List.getElem_mem inOrder)))
    · obtain ⟨name, sample, rfl⟩ := mem_samplePlaced sample
      exact List.forall_mem_singleton.2 .sample

theorem gives_of_mem_endsOf {o : Onset} {p : Placed} (member : p ∈ endsOf channel o) :
    ∀ e ∈ p.events, Gives samples floor channel o.step e := by
  unfold endsOf ends at member
  split at member
  · simp at member
  next clean =>
    have clean : o.step.error = none := by simpa [Step.isError] using clean
    split at member
    · obtain ⟨pitch, inPitches, rfl⟩ := List.mem_map.1 member
      exact List.forall_mem_singleton.2 (.noteOff clean inPitches)
    · simp at member

theorem gives_of_mem_onsetPlaced {row : List Onset} {p : Placed}
    (member : p ∈ onsetPlaced samples floor channel row) :
    ∃ o ∈ row, ∀ e ∈ p.events, Gives samples floor channel o.step e := by
  induction row with
  | nil => simp [onsetPlaced, onsetFigures] at member
  | cons o later ih =>
    rw [onsetPlaced_cons] at member
    simp only [List.mem_append] at member
    rcases member with ((message | start) | ending) | rest
    · obtain ⟨m, ordered, rfl⟩ := List.mem_map.1 message
      exact ⟨o, by simp, List.forall_mem_singleton.2 (.message ordered)⟩
    · split at start
      · simp at start
      · exact ⟨o, by simp, gives_of_mem_startsOf start⟩
    · split at ending
      · simp at ending
      · exact ⟨o, by simp, gives_of_mem_endsOf ending⟩
    · obtain ⟨other, inLater, gives⟩ := ih rest
      exact ⟨other, by simp [inLater], gives⟩

theorem gives_of_mem_sectionEvents {c : Score} {s : MusicalSection} {instruments : List Instrument}
    {p : Placed} (member : p ∈ sectionEvents c floor s instruments) :
    ∃ i ∈ instruments, ∃ measure ∈ s.measuresOf i.name, ∃ step ∈ measure,
      ∀ e ∈ p.events, Gives c.samples floor i.channel step e := by
  rw [sectionEvents_eq, List.mem_flatMap] at member
  obtain ⟨i, listed, placed⟩ := member
  obtain ⟨o, inRow, gives⟩ := gives_of_mem_onsetPlaced placed
  obtain ⟨measure, inSection, inMeasure⟩ := mem_instrumentOnsets inRow
  exact ⟨i, listed, measure, inSection, o.step, inMeasure, gives⟩

theorem strum_of_isInfinite_delay {s : Step} {e : Event} (gives : Gives samples floor channel s e)
    (late : e.delay.isInfinite = true) :
    ∃ order delay decay, s.ornament = some (.strum order delay decay) ∧
      ∃ k < order.length, (Binary64.ofInt (k * delay)).isInfinite = true := by
  cases gives with
  | message => rename_i m _; cases m <;> cases late
  | noteOn | noteOff | sample => cases late
  | @strummed order delay decay note k clean shape place =>
    exact ⟨order, delay, decay, shape, k, place, late⟩

theorem strum_of_isEndless {row : List Onset} {p : Placed}
    (member : p ∈ onsetPlaced samples floor channel row) (late : isEndless p = true) :
    ∃ o ∈ row, ∃ order delay decay, o.step.ornament = some (.strum order delay decay) ∧
      ∃ k < order.length, (Binary64.ofInt (k * delay)).isInfinite = true := by
  obtain ⟨o, inRow, gives⟩ := gives_of_mem_onsetPlaced member
  obtain ⟨e, inEvents, late⟩ := List.any_eq_true.1 late
  exact ⟨o, inRow, strum_of_isInfinite_delay (gives e inEvents) late⟩

theorem isBackward_of_mem_stepFigures {slot : Int} {step : Step} {following : List Step}
    (forward : ∀ {order spacing duration}, step.ornament = some (.arpeggio order spacing duration) →
      0 ≤ spacing) :
    ∀ f ∈ stepFigures samples floor channel slot step following, f.isBackward = false := by
  intro f member
  simp only [stepFigures, List.cons_append, List.mem_cons, List.mem_append, List.not_mem_nil,
    or_false] at member
  rcases member with rfl | starting | rfl
  · rfl
  · split at starting
    · simp at starting
    · simp only [starts, List.mem_cons, List.not_mem_nil, or_false] at starting
      rcases starting with rfl | rfl
      · cases ornament : step.ornament with
        | none => rfl
        | some shape =>
          cases shape with
          | arpeggio order spacing duration =>
            have := forward ornament
            simp only [Figure.isBackward, Bool.and_eq_false_iff, decide_eq_false_iff_not]
            omega
          | strum => rfl
      · rfl
  · rfl

theorem isBackward_of_mem_onsetFigures {row : List Onset}
    (forward : ∀ o ∈ row, ∀ {order spacing duration},
      o.step.ornament = some (.arpeggio order spacing duration) → 0 ≤ spacing) :
    ∀ f ∈ onsetFigures samples floor channel row, f.isBackward = false := by
  induction row with
  | nil => simp [onsetFigures]
  | cons o later ih =>
    intro f member
    rcases List.mem_append.1 member with here | after
    · exact isBackward_of_mem_stepFigures (forward o (by simp)) f here
    · exact ih (fun other inLater => forward other (by simp [inLater])) f after

end ScoreScript.Performance
