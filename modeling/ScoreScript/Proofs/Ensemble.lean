import ScoreScript.Proofs.Totality
import ScoreScript.Selection

set_option autoImplicit false

namespace ScoreScript

namespace Performance

open Placed Fault

/-- Two rows of slots as one: the events of the first row come first in every slot, and a slot that is
missing is empty. -/
def alongside (own other : List (List Event)) : List (List Event) :=
  own.zipWithAll (fun first second => first.getD [] ++ second.getD []) other

theorem length_alongside (own other : List (List Event)) :
    (alongside own other).length = max own.length other.length := by
  unfold alongside
  induction own generalizing other with
  | nil => simp
  | cons first rest ih =>
    cases other with
    | nil => simp
    | cons second later =>
      simp only [List.zipWithAll_cons_cons, List.length_cons, ih]
      omega

theorem getElem?_alongside (own other : List (List Event)) (slot : Nat) :
    ((alongside own other)[slot]?).getD [] = (own[slot]?).getD [] ++ (other[slot]?).getD [] := by
  rw [alongside, List.getElem?_zipWithAll]
  cases own[slot]? <;> cases other[slot]? <;> rfl

theorem eq_alongside {slots own other : List (List Event)}
    (length : slots.length = max own.length other.length)
    (content : ∀ slot : Nat,
      (slots[slot]?).getD [] = (own[slot]?).getD [] ++ (other[slot]?).getD []) :
    slots = alongside own other := by
  refine List.ext_getElem (by rw [length, length_alongside]) fun slot inside within => ?_
  have same := (content slot).trans (getElem?_alongside own other slot).symm
  rwa [List.getElem?_eq_getElem inside, List.getElem?_eq_getElem within] at same

variable {c : Score} {floor : Int} {s : MusicalSection}

theorem sectionEvents_append (first second : List Instrument) :
    sectionEvents c floor s (first ++ second) =
      sectionEvents c floor s first ++ sectionEvents c floor s second := by
  simp only [sectionEvents_eq, List.flatMap_append]

theorem sectionSlots_append (forward : 0 ≤ c.grid.stepsPerMeasure)
    (playable : s.AllSteps Step.IsPlayable) (first second : List Instrument) :
    sectionSlots c floor s (first ++ second) = do
      let own ← sectionSlots c floor s first
      let other ← sectionSlots c floor s second
      return alongside own other := by
  have nonneg (instruments : List Instrument) :=
    @slot_of_isPlayable c floor forward s instruments playable
  have just (instruments : List Instrument) :=
    @sectionSlots_failsJust_of_isPlayable c floor forward s playable instruments
  have events := @sectionEvents_append c floor s first second
  -- the whole is too late for a number as soon as one of the parts is
  by_cases late : ∃ p ∈ sectionEvents c floor s first, isEndless p = true
  · have whole : ∃ p ∈ sectionEvents c floor s (first ++ second), isEndless p = true := by
      obtain ⟨p, member, endless⟩ := late
      exact ⟨p, by rw [events]; exact List.mem_append_left _ member, endless⟩
    rw [(just first).fails late, (just _).fails whole]
    rfl
  obtain ⟨own, placed⟩ := (just first).works late
  by_cases later : ∃ p ∈ sectionEvents c floor s second, isEndless p = true
  · have whole : ∃ p ∈ sectionEvents c floor s (first ++ second), isEndless p = true := by
      obtain ⟨p, member, endless⟩ := later
      exact ⟨p, by rw [events]; exact List.mem_append_right _ member, endless⟩
    rw [placed, (just second).fails later, (just _).fails whole]
    rfl
  obtain ⟨other, beside⟩ := (just second).works later
  obtain ⟨slots, done⟩ := (just (first ++ second)).works fun ⟨p, member, endless⟩ => by
    rw [events] at member
    rcases List.mem_append.1 member with inFirst | inSecond
    · exact late ⟨p, inFirst, endless⟩
    · exact later ⟨p, inSecond, endless⟩
  rw [done, placed, beside]
  -- every row has the slots of the section, and those that its own events reach
  refine congrArg Except.ok (eq_alongside ?_ fun slot => ?_)
  · rw [length_sectionSlots_eq (nonneg _) done, length_sectionSlots_eq (nonneg _) placed,
      length_sectionSlots_eq (nonneg _) beside, events, extent_append]
    omega
  · rw [getElem?_sectionSlots (nonneg _) done, getElem?_sectionSlots (nonneg _) placed,
      getElem?_sectionSlots (nonneg _) beside, events, eventsAt_append]

theorem eventsAt_flatMap {α : Type} (items : List α) (placed : α → List Placed) (slot : Nat) :
    eventsAt (items.flatMap placed) slot = items.flatMap fun item => eventsAt (placed item) slot := by
  induction items with
  | nil => rfl
  | cons item rest ih => rw [List.flatMap_cons, List.flatMap_cons, eventsAt_append, ih]

def playedIn (c : Score) (own : MusicalSection → Instrument → List (List Event))
    (instruments : List Instrument) (slot : Nat) : List Event :=
  (schedule c 0 (playedSections c)).flatMap fun entry =>
    instruments.flatMap fun i => Row.eventsIn slot ⟨entry.1, own entry.2 i⟩

theorem eventsAt_shifted (forward : 0 ≤ c.grid.stepsPerMeasure)
    (playable : s.AllSteps Step.IsPlayable) {own : Instrument → List (List Event)}
    {instruments : List Instrument}
    (each : ∀ i ∈ instruments, sectionSlots c floor s [i] = .ok (own i)) (start : Int) (slot : Nat) :
    eventsAt ((sectionEvents c floor s instruments).map (shift start)) slot =
      instruments.flatMap fun i => Row.eventsIn slot ⟨start, own i⟩ := by
  have parts : sectionEvents c floor s instruments =
      instruments.flatMap fun i => sectionEvents c floor s [i] := by
    simp only [sectionEvents_eq, List.flatMap_singleton]
  rw [parts, List.map_flatMap, eventsAt_flatMap]
  refine List.flatMap_congr fun i listed => ?_
  have nonneg := @slot_of_isPlayable c floor forward s [i] playable
  rw [← Row.eventsAt_placedFrom ⟨start, own i⟩ slot]
  exact (eventsAt_moved nonneg (getElem?_sectionSlots nonneg (each i listed)) slot).symm

theorem getElem?_timeline_eq_playedIn (forward : 0 ≤ c.grid.stepsPerMeasure)
    (playable : ∀ s ∈ playedSections c, s.AllSteps Step.IsPlayable)
    {own : MusicalSection → Instrument → List (List Event)}
    (each : ∀ s ∈ playedSections c, ∀ i ∈ c.instruments.filter (·.selected),
      sectionSlots c floor s [i] = .ok (own s i))
    {t : Timeline} (done : c.timeline floor = .ok t) (slot : Nat) :
    (t.slots[slot]?).getD [] = playedIn c own (c.instruments.filter (·.selected)) slot := by
  rw [getElem?_timeline forward (fun s played => slot_of_isPlayable forward (playable s played)) done,
    scheduledEvents, eventsAt_flatMap]
  refine List.flatMap_congr fun entry member => ?_
  have played := mem_of_mem_schedule member
  exact eventsAt_shifted forward (playable entry.2 played) (each entry.2 played) entry.1 slot

end Performance

namespace Score

open Performance Fault

variable {c : Score} {floor : Int}

def deselect (c : Score) (keep : Instrument → Bool) : Score :=
  { c with instruments := c.instruments.map fun i => { i with selected := i.selected && keep i } }

theorem selected_deselect (c : Score) (keep : Instrument → Bool) :
    (c.deselect keep).instruments.filter (·.selected) =
      (c.instruments.filter (·.selected)).filter keep := by
  unfold deselect
  induction c.instruments with
  | nil => rfl
  | cons i rest ih =>
    obtain ⟨name, endpoint, channel, octave, velocity, selected⟩ := i
    dsimp only at ih
    cases selected with
    | false => simpa using ih
    | true =>
      cases kept : keep ⟨name, endpoint, channel, octave, velocity, true⟩ <;> simp [kept, ih]

theorem schedule_deselect (c : Score) (keep : Instrument → Bool) (offset : Int)
    (sections : List MusicalSection) :
    schedule (c.deselect keep) offset sections = schedule c offset sections := by
  induction sections generalizing offset with
  | nil => rfl
  | cons s rest ih =>
    rw [schedule, schedule, ih]
    rfl

theorem playedIn_deselect (c : Score) (keep : Instrument → Bool) :
    playedIn (c.deselect keep) = playedIn c := by
  funext own instruments slot
  rw [playedIn, schedule_deselect]
  rfl

theorem inTime_of_timeline (forward : 0 ≤ c.grid.stepsPerMeasure)
    (playable : ∀ s ∈ playedSections c, s.AllSteps Step.IsPlayable) {t : Timeline}
    (done : c.timeline floor = .ok t) : ¬c.IsEndless floor := by
  intro late
  rw [(timeline_failsJust_of_isPlayable forward playable).fails late] at done
  cases done

theorem isEndless_of_selected {instruments : List Instrument} {s : MusicalSection}
    (selected : ∀ i ∈ instruments, i ∈ c.instruments.filter (·.selected))
    (played : s ∈ playedSections c)
    (late : ∃ p ∈ sectionEvents c floor s instruments, isEndless p = true) : c.IsEndless floor := by
  obtain ⟨p, placed, endless⟩ := late
  rw [sectionEvents_eq, List.mem_flatMap] at placed
  obtain ⟨i, listed, placed⟩ := placed
  refine ⟨s, played, p, ?_, endless⟩
  rw [sectionEvents_eq]
  exact List.mem_flatMap.2 ⟨i, selected i listed, placed⟩

/-- Instruments do not interfere. The slots of several instruments in a section are the slots of each
side by side, and a timeline without some of its instruments has the events of the others in every slot,
in the same order. -/
theorem instruments_play_side_by_side (forward : 0 ≤ c.grid.stepsPerMeasure) :
    (∀ s : MusicalSection, s.AllSteps Step.IsPlayable → ∀ first second : List Instrument,
      sectionSlots c floor s (first ++ second) = do
        let own ← sectionSlots c floor s first
        let other ← sectionSlots c floor s second
        return alongside own other) ∧
    ∀ t : Timeline, (∀ s ∈ playedSections c, s.AllSteps Step.IsPlayable) →
      c.timeline floor = .ok t → ∀ keep : Instrument → Bool,
      ∃ own : MusicalSection → Instrument → List (List Event),
        (∀ s ∈ playedSections c, ∀ i ∈ c.instruments.filter (·.selected),
          sectionSlots c floor s [i] = .ok (own s i)) ∧
        ∃ quiet, (c.deselect keep).timeline floor = .ok quiet ∧ { quiet with slots := t.slots } = t ∧
          ∀ slot : Nat,
            (t.slots[slot]?).getD [] = playedIn c own (c.instruments.filter (·.selected)) slot ∧
            (quiet.slots[slot]?).getD [] =
              playedIn c own ((c.instruments.filter (·.selected)).filter keep) slot := by
  refine ⟨fun s playable => sectionSlots_append forward playable, fun t playable done keep => ?_⟩
  have inTime := inTime_of_timeline forward playable done
  have each : ∀ s ∈ playedSections c, ∀ i ∈ c.instruments.filter (·.selected),
      sectionSlots c floor s [i] = .ok ((sectionSlots c floor s [i]).toOption.getD []) := by
    intro s played i selected
    have just := @sectionSlots_failsJust_of_isPlayable c floor forward s (playable s played) [i]
    obtain ⟨own, alone⟩ := just.works fun late =>
      inTime (isEndless_of_selected (List.forall_mem_singleton.2 selected) played late)
    rw [alone]
    rfl
  have fewer : ∀ i ∈ (c.deselect keep).instruments.filter (·.selected),
      i ∈ c.instruments.filter (·.selected) := by
    rw [selected_deselect]
    exact fun i => List.mem_of_mem_filter
  have just := @timeline_failsJust_of_isPlayable (c.deselect keep) floor forward playable
  obtain ⟨quiet, quieter⟩ := just.works fun ⟨s, played, late⟩ =>
    inTime (isEndless_of_selected fewer played late)
  refine ⟨_, each, quiet, quieter, ?_, fun slot => ⟨?_, ?_⟩⟩
  · obtain ⟨slots, -, same⟩ := bind_eq_ok.1 done
    obtain ⟨slots', -, same'⟩ := bind_eq_ok.1 quieter
    cases same
    cases same'
    rfl
  · exact getElem?_timeline_eq_playedIn forward playable each done slot
  · rw [← selected_deselect, ← playedIn_deselect c keep]
    exact getElem?_timeline_eq_playedIn (c := c.deselect keep) forward playable
      (fun s played i selected => each s played i (fewer i selected)) quieter slot

def overhangingDuet : MusicalSection :=
  { name := "a"
    measures := [
      ("s", [[{ kind := .synth, pitches := [60, 64], length := 3,
                ornament := some (.arpeggio [1, 2] 1 1) }]]),
      ("t", [[{ kind := .drum, pitches := [36], length := 1 }]])] }

def duet : Score :=
  { grid := ⟨1, 2⟩
    instruments := [{ name := "s", channel := 3 }, { name := "t", channel := 9 }]
    playlist := [{ name := "a" }, { name := "a" }]
    sections := [overhangingDuet] }

theorem instruments_play_side_by_side_of_duet :
    sectionSlots duet 20 overhangingDuet duet.instruments =
      .ok (alongside
        [[Voice.noteOn ⟨3, 80⟩ 60], [Voice.noteOff ⟨3, 80⟩ 60, Voice.noteOn ⟨3, 80⟩ 64],
          [Voice.noteOff ⟨3, 80⟩ 64],
          [Voice.noteOff ⟨3, 80⟩ 60, Voice.noteOff ⟨3, 80⟩ 64]]
        [[Voice.noteOn ⟨9, 80⟩ 36], [Voice.noteOff ⟨9, 80⟩ 36], []]) ∧
    ∃ own quiet, (duet.deselect (·.name = "t")).timeline 20 = .ok quiet ∧
      ∀ slot : Nat, (quiet.slots[slot]?).getD [] =
        playedIn duet own [{ name := "t", channel := 9 }] slot := by
  have playable : overhangingDuet.AllSteps Step.IsPlayable :=
    MusicalSection.allSteps_of_entries (by decide)
  obtain ⟨beside, deselected⟩ :=
    @instruments_play_side_by_side duet 20 (by decide)
  constructor
  · refine (beside overhangingDuet playable [{ name := "s", channel := 3 }]
      [{ name := "t", channel := 9 }]).trans ?_
    decide +kernel
  · have works : (duet.timeline 20).toOption.any (fun _ => true) = true := by decide +kernel
    obtain ⟨t, done, -⟩ := exists_ok_of_any works
    have played : ∀ s ∈ playedSections duet, s = overhangingDuet := by decide +kernel
    obtain ⟨own, -, quiet, quieter, -, slots⟩ :=
      deselected t (fun s inPlaylist => played s inPlaylist ▸ playable) done (·.name = "t")
    exact ⟨own, quiet, quieter, fun slot => (slots slot).2⟩

end Score

end ScoreScript
