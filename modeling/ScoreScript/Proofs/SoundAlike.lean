import ScoreScript.Proofs.SlotOrder
import ScoreScript.Proofs.SoundEntries
import ScoreScript.Proofs.Totality

set_option autoImplicit false

namespace ScoreScript

namespace Performance

open Placed

section

variable {samples : Table Sample} {floor channel : Int} {row : List Onset} {c : Score}
  {instruments : List Instrument} {s now : MusicalSection} {ordered : Text → Nat → ControlMessage → Prop}

/-! ### Slots of a section -/

theorem mem_soundEntries {placed : List Placed} {slot : Int} {e : Event} :
    (slot, e) ∈ soundEntries placed ↔
      ∃ p ∈ placed, p.slot = slot ∧ ∃ sound ∈ p.events, sound.isMessage = false ∧ sound.muted = e := by
  simp only [soundEntries, List.mem_map, List.mem_filter, List.mem_flatMap, entries, Bool.not_eq_true']
  constructor
  · rintro ⟨_, ⟨⟨p, member, sound, inEvents, rfl⟩, loud⟩, same⟩
    cases same
    exact ⟨p, member, rfl, sound, inEvents, loud, rfl⟩
  · rintro ⟨p, member, rfl, sound, inEvents, loud, rfl⟩
    exact ⟨_, ⟨⟨p, member, sound, inEvents, rfl⟩, loud⟩, rfl⟩

theorem sounds_eventsAt (placed : List Placed) (slot : Nat) :
    Event.sounds (eventsAt placed slot) =
      ((soundEntries placed).filter (·.1 = (slot : Int))).map Prod.snd := by
  rw [eventsAt_eq_entries, Event.sounds, soundEntries, List.filter_map, List.filter_map, List.map_map,
    List.map_map, List.filter_filter, List.filter_filter]
  simp only [Function.comp_def, Bool.and_comm]

theorem events_ne_nil_of_mem_startsOf {length : Int} {o : Onset} {p : Placed}
    (member : p ∈ startsOf samples floor channel length o) : p.events ≠ [] := by
  unfold startsOf at member
  split at member
  · cases member
  · simp only [starts, List.flatMap_cons, List.flatMap_nil, List.append_nil, List.mem_append] at member
    rcases member with note | sample
    · cases ornament : o.step.ornament with
      | none =>
        simp only [ornament, Figure.placed] at note
        split at note
        · obtain ⟨pitch, -, rfl⟩ := List.mem_map.1 note
          simp [Placed.one]
        · cases note
      | some shape =>
        cases shape with
        | arpeggio order spacing duration =>
          simp only [ornament, Figure.placed] at note
          obtain ⟨pitch, -, place, rfl | rfl⟩ := mem_arpeggio note <;> simp [Placed.one]
        | strum order delay decay =>
          simp only [ornament, Figure.placed, strum_eq_mapIdx] at note
          obtain ⟨k, inOrder, rfl⟩ := List.mem_mapIdx.1 note
          simp [Placed.one]
    · obtain ⟨name, sample, rfl⟩ := mem_samplePlaced sample
      simp [Placed.one]

theorem events_ne_nil_of_mem_onsetPlaced {p : Placed}
    (member : p ∈ onsetPlaced samples floor channel row) : p.events ≠ [] := by
  induction row with
  | nil => simp [onsetPlaced, onsetFigures] at member
  | cons o later ih =>
    rw [onsetPlaced_cons] at member
    simp only [List.mem_append] at member
    rcases member with ((message | start) | ending) | rest
    · obtain ⟨m, -, rfl⟩ := List.mem_map.1 message
      simp [Placed.one]
    · split at start
      · cases start
      · exact events_ne_nil_of_mem_startsOf start
    · unfold endsOf ends at ending
      split_ifs at ending
      · cases ending
      · cases ending
      · obtain ⟨pitch, -, rfl⟩ := List.mem_map.1 ending
        simp [Placed.one]
      · cases ending
    · exact ih rest

theorem extent_le_of_soundEntries {placed other : List Placed} {n : Nat}
    (alike : soundEntries placed = soundEntries other) (present : ∀ p ∈ placed, p.events ≠ [])
    (early : ∀ p ∈ placed, ∀ e ∈ p.events, e.isMessage = true → p.slot < n) :
    extent placed ≤ max n (extent other) := by
  apply extent_le
  intro p member
  obtain ⟨e, inEvents⟩ := List.exists_mem_of_ne_nil _ (present p member)
  cases isMessage : e.isMessage with
  | true =>
    have := early p member e inEvents isMessage
    omega
  | false =>
    have sound : (p.slot, e.muted) ∈ soundEntries placed :=
      mem_soundEntries.2 ⟨p, member, rfl, e, inEvents, isMessage, rfl⟩
    rw [alike] at sound
    obtain ⟨q, there, same, -⟩ := mem_soundEntries.1 sound
    have := lt_extent there
    omega

theorem extent_le_of_controlled (forward : 0 < c.grid.stepsPerMeasure)
    (controlled : s.Controlled ordered now) {other : MusicalSection}
    (alike : soundEntries (sectionEvents c floor now instruments) =
      soundEntries (sectionEvents c floor other instruments)) :
    extent (sectionEvents c floor now instruments) ≤
      max (nominalLength c now + 1).toNat (extent (sectionEvents c floor other instruments)) := by
  apply extent_le_of_soundEntries alike
  · intro p member
    rw [sectionEvents_eq, List.mem_flatMap] at member
    obtain ⟨i, -, placed⟩ := member
    exact events_ne_nil_of_mem_onsetPlaced placed
  · intro p member e inEvents isMessage
    obtain ⟨i, -, m, inside, -, -, place, -⟩ :=
      message_of_mem_sectionEvents controlled member inEvents isMessage
    have most := now.length_measuresOf_le i.name
    have before : (m : Int) * c.grid.stepsPerMeasure ≤ nominalLength c now :=
      Int.mul_le_mul_of_nonneg_right (by omega) (Int.le_of_lt forward)
    omega

theorem extent_sectionEvents (forward : 0 < c.grid.stepsPerMeasure) (present : 1 ≤ s.length)
    (silent : s.AllSteps fun step => step.messages = []) (controlled : s.Controlled ordered now)
    (regular : now.Regular) :
    max (nominalLength c now + 1).toNat (extent (sectionEvents c floor now instruments)) =
      max (nominalLength c s + 1).toNat (extent (sectionEvents c floor s instruments)) := by
  have alike : soundEntries (sectionEvents c floor now instruments) =
      soundEntries (sectionEvents c floor s instruments) := soundEntries_sectionEvents controlled regular
  have nominal : nominalLength c now = nominalLength c s := by
    rw [nominalLength, controlled.length present, nominalLength]
  have most := extent_le_of_controlled forward controlled alike
  have kept : s.Controlled ordered s := .refl silent
  have least := extent_le_of_controlled forward kept alike.symm
  rw [nominal] at most ⊢
  omega

end

/-! ### Sections after each other -/

section

variable {c after : Score} {floor : Int} {instruments : List Instrument}

structure TakesAlike (c after : Score) (floor : Int) (instruments : List Instrument)
    (s now : MusicalSection) : Prop where
  nominal : nominalLength after now = nominalLength c s
  length : ∀ own other, sectionSlots c floor s instruments = .ok own →
    sectionSlots after floor now instruments = .ok other → other.length = own.length

theorem size_joinSections (forward : 0 ≤ c.grid.stepsPerMeasure) {sections musical : List MusicalSection}
    (alike : List.Forall₂ (TakesAlike c after floor instruments) sections musical)
    {slots other result changed : Slots} (same : other.size = slots.size) {offset : Int}
    (start : 0 ≤ offset) (done : joinSections c floor instruments slots offset sections = .ok result)
    (joined : joinSections after floor instruments other offset musical = .ok changed) :
    changed.size = result.size := by
  induction alike generalizing slots other offset with
  | nil =>
    cases done
    cases joined
    exact same
  | @cons s now rest more here later ih =>
    obtain ⟨own, performed, done⟩ := Fault.bind_eq_ok.1 done
    obtain ⟨grown, added, done⟩ := Fault.bind_eq_ok.1 done
    obtain ⟨own', performed', joined⟩ := Fault.bind_eq_ok.1 joined
    obtain ⟨grown', added', joined⟩ := Fault.bind_eq_ok.1 joined
    have length := here.length own own' performed performed'
    have long := length_sectionSlots performed
    have nominal := nominalLength_nonneg forward s
    -- a section takes the slots up to its last one, and starts at the same one with both scores
    have size {row : List (List Event)} {slots grown : Slots} (present : row ≠ [])
        (added : addAll slots (placedFrom offset row) = .ok grown) :
        grown.size = max slots.size (offset + row.length).toNat := by
      have nonneg (p : Placed) (member : p ∈ placedFrom offset row) : 0 ≤ p.slot :=
        Int.le_trans start (slot_placedFrom offset row p member)
      obtain ⟨result, laid, size, -⟩ := addAll_of_nonneg slots nonneg
      rw [added] at laid
      cases laid
      have reached : extent (placedFrom offset row) = (offset + row.length).toNat :=
        @Row.extent_placedFrom ⟨offset, row⟩ present
      rw [size, reached]
    have first := size (List.length_pos_iff.1 (by omega)) added
    have second := size (List.length_pos_iff.1 (by omega)) added'
    rw [here.nominal] at joined
    refine ih ?_ (Int.add_nonneg start nominal) done joined
    rw [first, second, length, same]

theorem schedule_forall₂ {R : MusicalSection → MusicalSection → Prop}
    (nominal : ∀ s now, R s now → nominalLength after now = nominalLength c s) (offset : Int)
    {sections musical : List MusicalSection} (alike : List.Forall₂ R sections musical) :
    List.Forall₂ (fun entry next => next.1 = entry.1 ∧ R entry.2 next.2) (schedule c offset sections)
      (schedule after offset musical) := by
  induction alike generalizing offset with
  | nil => exact .nil
  | cons here later ih =>
    refine .cons ⟨rfl, here⟩ ?_
    rw [nominal _ _ here]
    exact ih _

theorem soundEntries_shift (offset : Int) (placed : List Placed) :
    soundEntries (placed.map (shift offset)) =
      (soundEntries placed).map fun entry => (offset + entry.1, entry.2) := by
  simp [soundEntries, flatMap_entries_shift, List.filter_map, Function.comp_def]

theorem exists_mem_of_forall₂ {α β : Type} {R : α → β → Prop} {first : List α} {second : List β}
    {P : α → Prop} {Q : β → Prop} (related : List.Forall₂ R first second)
    (same : ∀ a b, R a b → Q b → P a) : (∃ b ∈ second, Q b) → ∃ a ∈ first, P a := by
  induction related with
  | nil => simp
  | cons here later ih =>
    simp only [List.exists_mem_cons_iff]
    exact Or.imp (same _ _ here) ih

theorem forall₂_of_mem {α β : Type} {R S : α → β → Prop} {first : List α} {second : List β}
    (related : List.Forall₂ R first second)
    (stronger : ∀ a ∈ first, ∀ b ∈ second, R a b → S a b) : List.Forall₂ S first second := by
  refine List.forall₂_iff_zip.2 ⟨related.length_eq, fun paired => ?_⟩
  obtain ⟨inFirst, inSecond⟩ := List.of_mem_zip paired
  exact stronger _ inFirst _ inSecond (List.forall₂_zip related paired)

end

end Performance

open Performance

/-! ### Timelines -/

namespace Timeline

def sounding (t : Timeline) : Timeline := { t with slots := t.slots.map Event.sounds }

theorem sounding_eq {t other : Timeline} (pace : { other with slots := t.slots } = t)
    (length : other.slots.length = t.slots.length)
    (sounds : ∀ slot : Nat, Event.sounds ((other.slots[slot]?).getD []) =
      Event.sounds ((t.slots[slot]?).getD [])) : other.sounding = t.sounding := by
  have slots : other.slots.map Event.sounds = t.slots.map Event.sounds := by
    apply List.ext_getElem (by simpa using length)
    intro slot inside within
    rw [List.length_map] at inside within
    have same := sounds slot
    rw [List.getElem?_eq_getElem inside, List.getElem?_eq_getElem within] at same
    simpa using same
  unfold sounding
  rw [slots, ← pace]

end Timeline

namespace Score

structure Orchestrated (ordered : MusicalSection → Text → Nat → ControlMessage → Prop)
    (s now : MusicalSection) : Prop where
  controlled : s.Controlled (ordered s) now
  present : 1 ≤ s.length
  silent : s.AllSteps fun step => step.messages = []
  before : s.Regular
  regular : now.Regular

variable {ordered : MusicalSection → Text → Nat → ControlMessage → Prop} {c : Score} {floor : Int}
  {s now : MusicalSection} {musical : List MusicalSection} {instruments : List Instrument}

theorem Orchestrated.nominal (change : Orchestrated ordered s now) :
    nominalLength c now = nominalLength c s := by
  rw [nominalLength, change.controlled.length change.present, nominalLength]

theorem Orchestrated.takesAlike (forward : 0 < c.grid.stepsPerMeasure) (change : Orchestrated ordered s now) :
    TakesAlike c { c with sections := musical } floor instruments s now where
  nominal := change.nominal
  length own other performed changed := by
    have performed' : sectionSlots c floor now instruments = .ok other := changed
    have nonneg {s : MusicalSection} (regular : s.Regular) :
        ∀ p ∈ sectionEvents c floor s instruments, 0 ≤ p.slot :=
      slot_sectionEvents (Int.le_of_lt forward) fun i _ => regular.lasting i.name
    rw [length_sectionSlots_eq (nonneg change.before) performed,
      length_sectionSlots_eq (nonneg change.regular) performed']
    exact extent_sectionEvents forward change.present change.silent change.controlled change.regular

theorem Orchestrated.isEndless_iff (change : Orchestrated ordered s now) :
    (∃ p ∈ sectionEvents c floor now instruments, isEndless p = true) ↔
      ∃ p ∈ sectionEvents c floor s instruments, isEndless p = true := by
  -- messages are never late, so endless events are among those that are heard
  have heard {s now : MusicalSection} {orders : Text → Nat → ControlMessage → Prop}
      (controlled : s.Controlled orders now) :
      (∃ p ∈ sectionEvents c floor now instruments, isEndless p = true) ↔
        ∃ entry ∈ soundEntries (sectionEvents c floor now instruments),
          entry.2.delay.isInfinite = true := by
    constructor
    · rintro ⟨p, member, late⟩
      obtain ⟨e, inEvents, late⟩ := List.any_eq_true.1 late
      cases isMessage : e.isMessage with
      | true =>
        obtain ⟨i, -, m, -, message, -, -, rfl⟩ :=
          message_of_mem_sectionEvents controlled member inEvents isMessage
        cases message <;> cases late
      | false =>
        have sound : (p.slot, e.muted) ∈ soundEntries (sectionEvents c floor now instruments) :=
          mem_soundEntries.2 ⟨p, member, rfl, e, inEvents, isMessage, rfl⟩
        exact ⟨_, sound, late⟩
    · rintro ⟨⟨slot, e⟩, member, late⟩
      obtain ⟨p, placed, -, sound, inEvents, -, rfl⟩ := mem_soundEntries.1 member
      exact ⟨p, placed, List.any_eq_true.2 ⟨sound, inEvents, late⟩⟩
  have kept : s.Controlled (ordered s) s := .refl change.silent
  rw [heard change.controlled, heard kept, soundEntries_sectionEvents change.controlled change.regular]

theorem isEndless_iff (changes : List.Forall₂ (Orchestrated ordered) c.sections musical) :
    ({ c with sections := musical } : Score).IsEndless floor ↔ c.IsEndless floor := by
  have played := playedSections_forall₂ (fun s now change => change.controlled.name) changes
  constructor
  · exact exists_mem_of_forall₂ played fun s now change => change.isEndless_iff.1
  · exact exists_mem_of_forall₂ played.flip fun now s change => change.isEndless_iff.2

theorem soundEntries_scheduledEvents
    (changes : List.Forall₂ (Orchestrated ordered) c.sections musical) :
    soundEntries (scheduledEvents { c with sections := musical } floor instruments
        (schedule { c with sections := musical } 0 (playedSections { c with sections := musical }))) =
      soundEntries (scheduledEvents c floor instruments (schedule c 0 (playedSections c))) := by
  have played := playedSections_forall₂ (fun s now change => change.controlled.name) changes
  have nominal (s now : MusicalSection) (change : Orchestrated ordered s now) :
      nominalLength { c with sections := musical } now = nominalLength c s := change.nominal
  rw [scheduledEvents, scheduledEvents, soundEntries_flatMap, soundEntries_flatMap, eq_comm,
    ← List.forall₂_eq_eq_eq]
  refine List.rel_flatMap (schedule_forall₂ nominal 0 played) ?_
  rintro ⟨start, s⟩ ⟨_, now⟩ ⟨rfl, change⟩
  rw [List.forall₂_eq_eq_eq]
  dsimp only
  rw [soundEntries_shift, soundEntries_shift]
  congr 1
  exact (soundEntries_sectionEvents change.controlled change.regular).symm

/-- Whether an event is a message in the first slot of a measure for which it is ordered. -/
def HeadsMeasure (c : Score) (ordered : MusicalSection → Text → Nat → ControlMessage → Prop)
    (slot : Nat) (e : Event) : Prop :=
  ∃ entry ∈ schedule c 0 (playedSections c), ∃ i ∈ c.instruments, i.selected = true ∧
    ∃ m < entry.2.length, ∃ message : ControlMessage, ordered entry.2 i.name m message ∧
      (slot : Int) = entry.1 + m * c.grid.stepsPerMeasure ∧ e = message.event i.channel

theorem headsMeasure_of_mem (changes : List.Forall₂ (Orchestrated ordered) c.sections musical)
    (regular : ({ c with sections := musical } : Score).Regular) {t : Timeline}
    (done : ({ c with sections := musical } : Score).timeline floor = .ok t) {slot : Nat} {e : Event}
    (member : e ∈ (t.slots[slot]?).getD []) (isMessage : e.isMessage = true) :
    c.HeadsMeasure ordered slot e := by
  have played := playedSections_forall₂ (fun s now change => change.controlled.name) changes
  have nominal (s now : MusicalSection) (change : Orchestrated ordered s now) :
      nominalLength { c with sections := musical } now = nominalLength c s := change.nominal
  rw [getElem?_slots regular done, Placed.mem_eventsAt] at member
  obtain ⟨_, placed, here, inEvents⟩ := member
  obtain ⟨entry, scheduled, moved⟩ := List.mem_flatMap.1 placed
  obtain ⟨p, inSection, rfl⟩ := List.mem_map.1 moved
  refine exists_mem_of_forall₂ (schedule_forall₂ nominal 0 played) ?_ ⟨entry, scheduled, rfl⟩
  rintro ⟨start, s⟩ _ ⟨same, change⟩ rfl
  obtain ⟨i, listed, m, inside, message, asked, place, sent⟩ :=
    message_of_mem_sectionEvents change.controlled inSection inEvents isMessage
  obtain ⟨declared, selected⟩ := List.mem_filter.1 listed
  have bounded : m < s.length := by
    have most := entry.2.length_measuresOf_le i.name
    have kept : entry.2.length = s.length := change.controlled.length change.present
    omega
  refine ⟨i, declared, selected, m, bounded, message, asked, ?_, sent⟩
  rw [← here, Placed.shift, place, same]

theorem timelines_alike (changes : List.Forall₂ (Orchestrated ordered) c.sections musical)
    (regular : c.Regular) (ornamented : c.IsOrnamented)
    (regular' : ({ c with sections := musical } : Score).Regular)
    (ornamented' : ({ c with sections := musical } : Score).IsOrnamented) :
    (∃ t changed, c.timeline floor = .ok t ∧
      ({ c with sections := musical } : Score).timeline floor = .ok changed ∧
      changed.sounding = t.sounding) ∨
    c.timeline floor = .error .numberTooLarge ∧
      ({ c with sections := musical } : Score).timeline floor = .error .numberTooLarge ∧
      c.HasEndlessStrum := by
  have before := @timeline_failsJust_of_isOrnamented c floor regular ornamented
  have after := @timeline_failsJust_of_isOrnamented { c with sections := musical } floor regular' ornamented'
  by_cases endless : c.IsEndless floor
  · right
    exact ⟨before.fails endless, after.fails ((isEndless_iff changes).2 endless),
      hasEndlessStrum_of_isEndless ornamented endless⟩
  · left
    obtain ⟨t, done⟩ := before.works endless
    obtain ⟨changed, done'⟩ := after.works fun late => endless ((isEndless_iff changes).1 late)
    refine ⟨t, changed, done, done', ?_⟩
    have content (slot : Nat) : Event.sounds ((changed.slots[slot]?).getD []) =
        Event.sounds ((t.slots[slot]?).getD []) := by
      rw [getElem?_slots regular' done', getElem?_slots regular done, sounds_eventsAt, sounds_eventsAt]
      congr 2
      exact soundEntries_scheduledEvents changes
    have forward := regular.forward
    have played := playedSections_forall₂ (fun s now change => change.controlled.name) changes
    obtain ⟨slots, joined, same⟩ := Fault.bind_eq_ok.1 done
    obtain ⟨others, joined', same'⟩ := Fault.bind_eq_ok.1 done'
    cases same
    cases same'
    have size := size_joinSections (Int.le_of_lt forward)
      (played.imp fun s now change => change.takesAlike forward) rfl (Int.le_refl 0) joined joined'
    exact Timeline.sounding_eq rfl (by simpa using size) content

/-- Control lines keep a score but for velocities, messages and what carries them. Where every section has
a measure, they keep its timeline but for messages in front of the measures that they address and for how
loud its events are. -/
theorem sounding_of_readControl {settings : Settings} {sections : List Script.Section}
    {before after : Reading} (loaded : beforeControl settings sections = .ok before)
    (read : readControl before (Script.find? sections controlName) = .ok after)
    (present : ∀ s ∈ before.score.sections, 1 ≤ s.length) (earlier : Option Selection) (floor : Int) :
    before.score.Controlled (controlLines sections) after.score ∧
    ((∃ t changed, (before.score.restore earlier).timeline floor = .ok t ∧
        (after.score.restore earlier).timeline floor = .ok changed ∧ changed.sounding = t.sounding ∧
        ∀ slot e, e ∈ (changed.slots[slot]?).getD [] → e.isMessage = true →
          (before.score.restore earlier).HeadsMeasure (before.score.Ordered (controlLines sections)) slot
            e) ∨
      (before.score.restore earlier).timeline floor = .error .numberTooLarge ∧
        (after.score.restore earlier).timeline floor = .error .numberTooLarge ∧
        before.score.HasEndlessStrum) := by
  obtain ⟨regular, ornamented, silent⟩ := beforeControl_cases loaded
  have controlled := controlled_readControl silent read
  have regular' := regular_readControl regular read
  have ornamented' := isOrnamented_readControl ornamented read
  refine ⟨controlled, ?_⟩
  obtain ⟨musical, same, related⟩ := controlled
  rw [same] at regular' ornamented' ⊢
  have changes : List.Forall₂ (Orchestrated (before.score.Ordered (controlLines sections)))
      before.score.sections musical :=
    forall₂_of_mem related fun s inScore now changed controlled =>
      ⟨controlled, present s inScore, silent s inScore, regular.music s inScore,
        regular'.music now changed⟩
  rcases timelines_alike (c := before.score.restore earlier) changes (regular.restore earlier) ornamented
    (regular'.restore earlier) ornamented' with ⟨t, changed, done, done', alike⟩ | fails
  · left
    exact ⟨t, changed, done, done', alike, fun slot e member isMessage =>
      headsMeasure_of_mem (c := before.score.restore earlier) changes (regular'.restore earlier) done' member
        isMessage⟩
  · exact .inr fails

def conducted : Text :=
  "[composition]\nplaylist: a\ncc: volume=7\n[instruments]\ns: octave=3\nt: channel=2\n[a]\ns: 1 2 | 3 -\n" ++
    "[control]\ns/a/2..2/velocity: +10\ns/2/cc: volume=100\nt/program: 1.2"

theorem sounding_of_conducted : ∃ settings before after t changed,
    Settings.ofPartial .null = .ok settings ∧
    beforeControl settings (Script.parse conducted).1 = .ok before ∧
    readControl before (Script.find? (Script.parse conducted).1 controlName) = .ok after ∧
    (∀ s ∈ before.score.sections, 1 ≤ s.length) ∧ (before.score.restore none).timeline 20 = .ok t ∧
    (after.score.restore none).timeline 20 = .ok changed ∧ changed.sounding = t.sounding := by
  have reads : ((do
      let settings ← Settings.ofPartial .null
      let before ← beforeControl settings (Script.parse conducted).1
      let after ← readControl before (Script.find? (Script.parse conducted).1 controlName)
      return (before, after)).toOption.any fun r : Reading × Reading =>
        (∀ s ∈ r.1.score.sections, 1 ≤ s.length) && ((r.1.score.restore none).timeline 20).isOk) =
      true := by
    decide +kernel
  obtain ⟨r, read, fine⟩ := Fault.exists_ok_of_any reads
  obtain ⟨settings, packaged, read⟩ := Fault.bind_eq_ok.1 read
  obtain ⟨before, loaded, read⟩ := Fault.bind_eq_ok.1 read
  obtain ⟨after, controlled, same⟩ := Fault.bind_eq_ok.1 read
  cases same
  simp only [Bool.and_eq_true, decide_eq_true_eq] at fine
  obtain ⟨present, timed⟩ := fine
  obtain ⟨-, ⟨t, changed, done, done', alike, -⟩ | ⟨fails, -⟩⟩ :=
    sounding_of_readControl loaded controlled present none 20
  · exact ⟨settings, before, after, t, changed, packaged, loaded, controlled, present, done, done',
      alike⟩
  · rw [fails] at timed
    cases timed

end Score

end ScoreScript
