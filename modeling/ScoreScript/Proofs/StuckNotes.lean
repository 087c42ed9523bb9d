import ScoreScript.Proofs.Reading

set_option autoImplicit false

namespace ScoreScript

def Step.heldNotes (s : Step) : List Int :=
  match s.ornament with
  | none => if s.isNote then s.pitches else []
  | some (.arpeggio _ _ _) => []
  | some (.strum _ _ _) => s.playingOrder

theorem Step.mem_pitches_of_mem_heldNotes {s : Step} {note : Int} (held : note ∈ s.heldNotes) :
    note ∈ s.pitches := by
  unfold heldNotes at held
  split at held
  · split at held
    · exact held
    · simp at held
  · simp at held
  next strum =>
    rw [playingOrder, strum] at held
    obtain ⟨number, -, found⟩ := List.mem_filterMap.1 held
    unfold pitch? at found
    split at found
    · exact List.mem_of_getElem? found
    · cases found

namespace Placed

def HasAt (placed : List Placed) (kind : Event.Kind) (slot channel note : Int) : Prop :=
  ∃ p ∈ placed, p.slot = slot ∧ ∃ e ∈ p.events, e.kind = kind ∧ e.channel = channel ∧ e.note = note

variable {kind : Event.Kind} {slot channel note : Int}

@[simp] theorem hasAt_nil : ¬HasAt [] kind slot channel note := by
  simp [HasAt]

@[simp] theorem hasAt_append {first second : List Placed} :
    HasAt (first ++ second) kind slot channel note ↔
      HasAt first kind slot channel note ∨ HasAt second kind slot channel note := by
  simp only [HasAt, List.mem_append, or_and_right, exists_or]

@[simp] theorem hasAt_cons_one {place : Int} {e : Event} {rest : List Placed} :
    HasAt (.one place e :: rest) kind slot channel note ↔
      (place = slot ∧ e.kind = kind ∧ e.channel = channel ∧ e.note = note) ∨
        HasAt rest kind slot channel note := by
  simp [HasAt, one]

theorem hasAt_flatMap {α : Type} {items : List α} {placed : α → List Placed} :
    HasAt (items.flatMap placed) kind slot channel note ↔
      ∃ item ∈ items, HasAt (placed item) kind slot channel note := by
  simp only [HasAt, List.mem_flatMap]
  constructor
  · rintro ⟨p, ⟨item, member, inItem⟩, found⟩
    exact ⟨item, member, p, inItem, found⟩
  · rintro ⟨item, member, p, inItem, found⟩
    exact ⟨p, ⟨item, member, inItem⟩, found⟩

theorem hasAt_map_one {α : Type} {items : List α} {place : Int} {event : α → Event} :
    HasAt (items.map fun item => .one place (event item)) kind slot channel note ↔
      place = slot ∧ ∃ item ∈ items,
        (event item).kind = kind ∧ (event item).channel = channel ∧ (event item).note = note := by
  induction items with
  | nil => simp
  | cons item rest ih =>
    rw [List.map_cons, hasAt_cons_one, ih]
    simp only [List.exists_mem_cons_iff, and_or_left]

theorem hasAt_shift {offset : Int} {placed : List Placed} :
    HasAt (placed.map (shift offset)) kind slot channel note ↔
      HasAt placed kind (slot - offset) channel note := by
  simp only [HasAt, List.mem_map]
  constructor
  · rintro ⟨_, ⟨p, member, rfl⟩, here, found⟩
    exact ⟨p, member, by simp only [shift] at here; omega, found⟩
  · rintro ⟨p, member, here, found⟩
    exact ⟨_, ⟨p, member, rfl⟩, by simp only [shift]; omega, found⟩

end Placed

namespace Timeline

def Has (t : Timeline) (kind : Event.Kind) (slot : Nat) (channel note : Int) : Prop :=
  ∃ e ∈ (t.slots[slot]?).getD [], e.kind = kind ∧ e.channel = channel ∧ e.note = note

def EndsAfter (t : Timeline) (slot : Nat) (channel note : Int) : Prop :=
  ∃ later, slot < later ∧ t.Has .noteOff later channel note

def NoStuckNotes (t : Timeline) : Prop :=
  ∀ slot channel note, t.Has .noteOn slot channel note → t.EndsAfter slot channel note

instance (t : Timeline) (kind : Event.Kind) (slot : Nat) (channel note : Int) :
    Decidable (t.Has kind slot channel note) :=
  inferInstanceAs <| Decidable <|
    ∃ e ∈ (t.slots[slot]?).getD [], e.kind = kind ∧ e.channel = channel ∧ e.note = note

theorem not_has_of_length_le {t : Timeline} {kind : Event.Kind} {slot : Nat} {channel note : Int}
    (beyond : t.slots.length ≤ slot) : ¬t.Has kind slot channel note := by
  simp [Has, beyond]

instance (t : Timeline) (slot : Nat) (channel note : Int) : Decidable (t.EndsAfter slot channel note) :=
  decidable_of_iff (∃ later < t.slots.length, slot < later ∧ t.Has .noteOff later channel note) <| by
    constructor
    · exact fun ⟨later, _, after, ends⟩ => ⟨later, after, ends⟩
    · exact fun ⟨later, after, ends⟩ =>
        ⟨later, Nat.lt_of_not_le fun beyond => not_has_of_length_le beyond ends, after, ends⟩

instance (t : Timeline) : Decidable t.NoStuckNotes :=
  decidable_of_iff (∀ slot < t.slots.length, ∀ e ∈ (t.slots[slot]?).getD [], e.kind = .noteOn →
      t.EndsAfter slot e.channel e.note) <| by
    constructor
    -- slots beyond the last one are empty
    · rintro free slot channel note ⟨e, member, starts, rfl, rfl⟩
      refine free slot (Nat.lt_of_not_le fun beyond => ?_) e member starts
      simp [beyond] at member
    · exact fun free slot _ e member starts => free slot e.channel e.note ⟨e, member, starts, rfl, rfl⟩

theorem has_iff {t : Timeline} {placed : List Placed} {kind : Event.Kind} {slot : Nat}
    {channel note : Int} (content : (t.slots[slot]?).getD [] = Placed.eventsAt placed slot) :
    t.Has kind slot channel note ↔ Placed.HasAt placed kind slot channel note := by
  simp only [Has, content, Placed.mem_eventsAt, Placed.HasAt]
  constructor
  · rintro ⟨e, ⟨p, placed, here, member⟩, same⟩
    exact ⟨p, placed, here, e, member, same⟩
  · rintro ⟨p, placed, here, e, member, same⟩
    exact ⟨e, ⟨p, placed, here, member⟩, same⟩

end Timeline

namespace Performance

open Placed

variable {samples : Table Sample} {floor channel : Int} {kind : Event.Kind} {slot key note : Int}

/-! ### Notes of a step -/

theorem ends_of_arpeggio {v : Voice} {notes : List Int} {spacing duration stop : Int} {k : Nat}
    {first : Int}
    (starts : HasAt (arpeggio v notes spacing duration stop k first) .noteOn slot key note) :
    v.channel = key ∧
      HasAt (arpeggio v notes spacing duration stop k first) .noteOff (slot + duration) key note := by
  fun_induction arpeggio v notes spacing duration stop k first with
  | case1 => simp at starts
  | case2 k first ongoing struck found ih =>
    simp only [hasAt_cons_one] at starts ⊢
    -- the note of this round, its end, which is no start, or a note of a later round
    rcases starts with ⟨rfl, -, same, rfl⟩ | ⟨-, ending, -⟩ | later
    · exact ⟨same, .inr (.inl ⟨rfl, rfl, same, rfl⟩)⟩
    · cases ending
    · obtain ⟨same, ends⟩ := ih later
      exact ⟨same, .inr (.inr ends)⟩
  | case3 => simp at starts

theorem hasAt_strum {v : Voice} {notes : List Int} {delay decay place : Int} :
    HasAt (strum v notes delay decay floor place) kind slot key note ↔
      place = slot ∧ .noteOn = kind ∧ v.channel = key ∧ note ∈ notes := by
  have go (v : Voice) (k : Nat) :
      HasAt (strum.go delay decay floor place v k notes) kind slot key note ↔
      place = slot ∧ .noteOn = kind ∧ v.channel = key ∧ note ∈ notes := by
    induction notes generalizing v k with
    | nil => simp [strum.go]
    | cons first rest ih =>
      rw [strum.go, hasAt_cons_one, ih]
      simp only [Voice.noteOn, List.mem_cons, eq_comm (a := note)]
      tauto
  exact go v 0

theorem not_hasAt_samples {v : Voice} {place : Int} {names : List Text}
    (isNote : kind = .noteOn ∨ kind = .noteOff) :
    ¬HasAt (names.filterMap fun name =>
      (samples.find? name).map fun sample => .one place (sampleEvent v name sample))
      kind slot key note := by
  rintro ⟨p, placed, -, e, member, same, -⟩
  obtain ⟨name, sample, rfl⟩ := mem_samplePlaced placed
  obtain rfl := List.mem_singleton.1 member
  rcases isNote with rfl | rfl <;> simp [sampleEvent] at same

theorem not_hasAt_messagesOf {o : Onset} (isNote : kind = .noteOn ∨ kind = .noteOff) :
    ¬HasAt (messagesOf channel o) kind slot key note := by
  rw [messagesOf, hasAt_map_one]
  rintro ⟨-, message, -, same, -⟩
  rcases isNote with rfl | rfl <;> cases message <;> simp [ControlMessage.event] at same

theorem ends_of_startsOf {length : Int} {o : Onset} (lasting : o.step.IsLasting)
    (starts : HasAt (startsOf samples floor channel length o) .noteOn slot key note) :
    o.step.isError = false ∧ channel = key ∧
      (slot = o.slot ∧ note ∈ o.step.heldNotes ∨
        ∃ later, slot < later ∧
          HasAt (startsOf samples floor channel length o) .noteOff later key note) := by
  cases error : o.step.isError with
  | true => simp [startsOf, error] at starts
  | false =>
    simp only [startsOf, error, Performance.starts, List.flatMap_cons, List.flatMap_nil,
      List.append_nil, hasAt_append, Figure.placed, not_hasAt_samples (.inl rfl),
      not_hasAt_samples (.inr rfl), or_false, Bool.false_eq_true, if_false, true_and] at starts ⊢
    unfold Step.heldNotes
    cases ornament : o.step.ornament with
    -- plain and strummed notes start with the step; those of an arpeggio bring their ends
    | none =>
      simp only [ornament] at starts ⊢
      split at starts
      next isNote =>
        rw [hasAt_map_one] at starts
        obtain ⟨here, pitch, member, -, same, rfl⟩ := starts
        exact ⟨same, .inl ⟨here.symm, by rwa [if_pos isNote]⟩⟩
      next => simp at starts
    | some shape =>
      have here := lasting.ornament shape ornament
      cases shape with
      | arpeggio order spacing duration =>
        simp only [ornament] at starts ⊢
        obtain ⟨same, ends⟩ := ends_of_arpeggio starts
        have forward : 0 < duration := here
        exact ⟨same, .inr ⟨slot + duration, by omega, ends⟩⟩
      | strum order delay decay =>
        simp only [ornament] at starts ⊢
        obtain ⟨place, -, same, member⟩ := hasAt_strum.1 starts
        exact ⟨same, .inl ⟨place.symm, member⟩⟩

theorem startsOf_heldNotes {length : Int} {o : Onset} (sound : o.step.isError = false)
    (held : note ∈ o.step.heldNotes) :
    HasAt (startsOf samples floor channel length o) .noteOn o.slot channel note := by
  simp only [startsOf, sound, Performance.starts, List.flatMap_cons, List.flatMap_nil, List.append_nil,
    hasAt_append, Figure.placed, Bool.false_eq_true, if_false]
  refine .inl ?_
  unfold Step.heldNotes at held
  split at held
  next plain =>
    simp only [plain]
    split at held
    next isNote =>
      rw [if_pos isNote, hasAt_map_one]
      exact ⟨rfl, note, held, rfl, rfl, rfl⟩
    next => simp at held
  next => simp at held
  next strum =>
    simp only [strum]
    exact hasAt_strum.2 ⟨rfl, rfl, rfl, held⟩

theorem hasAt_endsOf {o : Onset} :
    HasAt (endsOf channel o) kind slot key note ↔
      o.step.isError = false ∧ o.step.isNote = true ∧ o.finish = slot ∧ .noteOff = kind ∧
        channel = key ∧ note ∈ o.step.pitches := by
  cases error : o.step.isError <;> cases isNote : o.step.isNote <;> simp [endsOf, ends, error, isNote]
  rw [hasAt_map_one]
  simp only [Onset.finish, Voice.noteOff]
  constructor
  · rintro ⟨here, pitch, member, same, channels, rfl⟩
    exact ⟨here, same, channels, member⟩
  · rintro ⟨here, same, channels, member⟩
    exact ⟨here, note, member, same, channels, rfl⟩

/-! ### Notes of a chain -/

variable {first : Onset} {rest : List Onset}

theorem hasAt_chainPlaced (isNote : kind = .noteOn ∨ kind = .noteOff) :
    HasAt (chainPlaced samples floor channel (first :: rest)) kind slot key note ↔
      HasAt (startsOf samples floor channel (chainLength (first :: rest)) first) kind slot key note ∨
        HasAt (endsOf channel (rest.getLastD first)) kind slot key note := by
  have silent : ¬HasAt (rest.flatMap (messagesOf channel)) kind slot key note := by
    rw [hasAt_flatMap]
    rintro ⟨o, -, found⟩
    exact not_hasAt_messagesOf isNote found
  simp only [chainPlaced, hasAt_append, not_hasAt_messagesOf isNote, silent, false_or, or_false]

structure LeavesOpen (first : Onset) (rest : List Onset) (note : Int) : Prop where
  sound : first.step.isError = false
  held : note ∈ first.step.heldNotes
  unended : first.step.isNote = false ∨ (rest.getLastD first).finish ≤ first.slot

instance (first : Onset) (rest : List Onset) (note : Int) :
    Decidable (Performance.LeavesOpen first rest note) :=
  decidable_of_iff (first.step.isError = false ∧ note ∈ first.step.heldNotes ∧
      (first.step.isNote = false ∨ (rest.getLastD first).finish ≤ first.slot))
    ⟨fun ⟨sound, held, unended⟩ => ⟨sound, held, unended⟩,
      fun ⟨sound, held, unended⟩ => ⟨sound, held, unended⟩⟩

theorem last_ends_pitches (same : ∀ o ∈ rest, o.step.tone = first.step.tone)
    (sound : first.step.isError = false) (isNote : first.step.isNote = true)
    (pitch : note ∈ first.step.pitches) :
    (rest.getLastD first).step.isError = false ∧ (rest.getLastD first).step.isNote = true ∧
      note ∈ (rest.getLastD first).step.pitches := by
  have alike : (rest.getLastD first).step.tone = first.step.tone := by
    rcases List.mem_cons.1 (List.getLastD_mem_cons (l := rest) (a := first)) with only | later
    · rw [only]
    · exact same _ later
  simp only [Step.tone, Prod.mk.injEq] at alike
  refine ⟨?_, ?_, ?_⟩
  · rwa [Step.isError, alike.2.2.1]
  · rwa [Step.isNote, alike.1]
  · rwa [alike.2.1]

theorem ends_of_chainPlaced (lasting : first.step.IsLasting)
    (same : ∀ o ∈ rest, o.step.tone = first.step.tone)
    (starts : HasAt (chainPlaced samples floor channel (first :: rest)) .noteOn slot key note) :
    channel = key ∧ (slot = first.slot ∧ LeavesOpen first rest note ∨
      ∃ later, slot < later ∧
        HasAt (chainPlaced samples floor channel (first :: rest)) .noteOff later key note) := by
  rw [hasAt_chainPlaced (.inl rfl)] at starts
  simp only [hasAt_chainPlaced (.inr rfl)]
  rcases starts with starts | ending
  · obtain ⟨sound, channels, ⟨here, held⟩ | ⟨later, after, ends⟩⟩ := ends_of_startsOf lasting starts
    · refine ⟨channels, ?_⟩
      by_cases ended : first.step.isNote = true ∧ first.slot < (rest.getLastD first).finish
      · have pitch := Step.mem_pitches_of_mem_heldNotes held
        obtain ⟨clean, isNote, inLast⟩ := last_ends_pitches same sound ended.1 pitch
        exact .inr ⟨(rest.getLastD first).finish, by omega,
          .inr (hasAt_endsOf.2 ⟨clean, isNote, rfl, rfl, channels, inLast⟩)⟩
      · refine .inl ⟨here, sound, held, ?_⟩
        cases isNote : first.step.isNote with
        | false => exact .inl rfl
        | true => exact .inr (Int.not_lt.1 fun before => ended ⟨isNote, before⟩)
    · exact ⟨channels, .inr ⟨later, after, .inl ends⟩⟩
  · obtain ⟨-, -, -, ending, -⟩ := hasAt_endsOf.1 ending
    cases ending

end Performance

/-! ### Notes of a score -/

open Performance

namespace Score

def Plays (c : Score) (start : Int) (i : Instrument) (chain : List Onset) : Prop :=
  ∃ s, (start, s) ∈ schedule c 0 (playedSections c) ∧ i ∈ c.instruments ∧ i.selected = true ∧
    chain ∈ chains (instrumentOnsets c s i)

def LeavesOpen (c : Score) (slot : Nat) (channel note : Int) : Prop :=
  ∃ start i first rest, c.Plays start i (first :: rest) ∧ start + first.slot = slot ∧
    i.channel = channel ∧ Performance.LeavesOpen first rest note

instance (c : Score) (slot : Nat) (channel note : Int) : Decidable (c.LeavesOpen slot channel note) :=
  decidable_of_iff (∃ entry ∈ schedule c 0 (playedSections c), ∃ i ∈ c.instruments, i.selected = true ∧
      ∃ chain ∈ chains (instrumentOnsets c entry.2 i), ∃ first ∈ chain.head?,
        entry.1 + first.slot = slot ∧ i.channel = channel ∧
          Performance.LeavesOpen first chain.tail note) <| by
    constructor
    · rintro ⟨⟨start, s⟩, played, i, declared, selected, chain, member, first, head, here, own, unended⟩
      obtain ⟨rest, rfl⟩ := List.head?_eq_some_iff.1 head
      exact ⟨start, i, first, rest, ⟨s, played, declared, selected, member⟩, here, own, unended⟩
    · rintro ⟨start, i, first, rest, ⟨s, played, declared, selected, member⟩, here, own, unended⟩
      exact ⟨(start, s), played, i, declared, selected, first :: rest, member, first, rfl, here, own,
        unended⟩

variable {c : Score} {floor : Int} {kind : Event.Kind} {channel note : Int}

theorem hasAt_scheduledEvents (regular : c.Regular) {slot : Int} :
    Placed.HasAt (scheduledEvents c floor (c.instruments.filter (·.selected))
        (schedule c 0 (playedSections c))) kind slot channel note ↔
      ∃ start i chain, c.Plays start i chain ∧
        Placed.HasAt (chainPlaced c.samples floor i.channel chain) kind (slot - start) channel
          note := by
  have row {start : Int} {s : MusicalSection} (played : (start, s) ∈ schedule c 0 (playedSections c))
      (i : Instrument) : onsetPlaced c.samples floor i.channel (instrumentOnsets c s i) =
        (chains (instrumentOnsets c s i)).flatMap (chainPlaced c.samples floor i.channel) :=
    onsetPlaced_eq _ _ _ (tiedRow_instrumentOnsets (regular_of_mem_schedule regular played) i)
  simp only [scheduledEvents, sectionEvents_eq, Placed.hasAt_flatMap, Placed.hasAt_shift]
  constructor
  · rintro ⟨⟨start, s⟩, played, i, chosen, found⟩
    rw [row played, Placed.hasAt_flatMap] at found
    obtain ⟨chain, member, found⟩ := found
    obtain ⟨declared, selected⟩ := List.mem_filter.1 chosen
    exact ⟨start, i, chain, ⟨s, played, declared, selected, member⟩, found⟩
  · rintro ⟨start, i, chain, ⟨s, played, declared, selected, member⟩, found⟩
    refine ⟨(start, s), played, i, List.mem_filter.2 ⟨declared, selected⟩, ?_⟩
    rw [row played, Placed.hasAt_flatMap]
    exact ⟨chain, member, found⟩

theorem endsAfter_or_leavesOpen (regular : c.Regular) {timeline : Timeline}
    (done : c.timeline floor = .ok timeline) {slot : Nat}
    (starts : timeline.Has .noteOn slot channel note) :
    timeline.EndsAfter slot channel note ∨ c.LeavesOpen slot channel note := by
  rw [Timeline.has_iff (getElem?_slots regular done slot), hasAt_scheduledEvents regular] at starts
  obtain ⟨start, i, chain, ⟨s, played, declared, selected, member⟩, starts⟩ := starts
  have music := regular_of_mem_schedule regular played
  have tied : Measure.TiedRow Step.tone ((instrumentOnsets c s i).map Onset.step) :=
    tiedRow_instrumentOnsets music i
  cases chain with
  | nil => exact absurd rfl (isWhole_of_mem_chains tied _ member).present
  | cons first rest =>
    have lasting : first.step.IsLasting :=
      lasting_instrumentOnsets (music.lasting i.name) (mem_of_mem_chains member (by simp))
    obtain ⟨channels, ⟨here, unended⟩ | ⟨later, after, ends⟩⟩ :=
      ends_of_chainPlaced lasting (view_eq_of_mem_chains tied member) starts
    · have plays : c.Plays start i (first :: rest) := ⟨s, played, declared, selected, member⟩
      exact .inr ⟨start, i, first, rest, plays, by omega, channels, unended⟩
    · refine .inl ⟨(start + later).toNat, by omega, ?_⟩
      rw [Timeline.has_iff (getElem?_slots regular done _), hasAt_scheduledEvents regular]
      have moved : ((start + later).toNat : Int) - start = later := by omega
      exact ⟨start, i, first :: rest, ⟨s, played, declared, selected, member⟩, by rwa [moved]⟩

theorem has_of_leavesOpen (regular : c.Regular) {timeline : Timeline}
    (done : c.timeline floor = .ok timeline) {slot : Nat} (unended : c.LeavesOpen slot channel note) :
    timeline.Has .noteOn slot channel note := by
  obtain ⟨start, i, first, rest, played, here, rfl, unended⟩ := unended
  rw [Timeline.has_iff (getElem?_slots regular done slot), hasAt_scheduledEvents regular]
  have moved : (slot : Int) - start = first.slot := by omega
  refine ⟨start, i, first :: rest, played, (hasAt_chainPlaced (.inl rfl)).2 (.inl ?_)⟩
  rw [moved]
  exact startsOf_heldNotes unended.sound unended.held

end Score

namespace Compilation

/-- In a compiled timeline a note is stuck just where its chain leaves it open and no other note of its
pitch ends it. -/
theorem noStuckNotes_iff {settings : Settings} {earlier : Option Selection} {text : Text}
    {c : Compilation} (compiled : ofText settings earlier text = .ok c) :
    c.timeline.NoStuckNotes ↔
      ∀ slot channel note,
        c.score.LeavesOpen slot channel note → c.timeline.EndsAfter slot channel note := by
  obtain ⟨regular, floor, done⟩ := Compilation.regular compiled
  constructor
  · intro free slot channel note unended
    exact free slot channel note (Score.has_of_leavesOpen regular done unended)
  · intro ended slot channel note starts
    rcases Score.endsAfter_or_leavesOpen regular done starts with ends | unended
    · exact ends
    · exact ended slot channel note unended

-- the note that the strum leaves open is ended by the note after it
def coveredStrum : Text :=
  "[composition]\nplaylist: a\n[instruments]\ns: octave=3\n[sounds]\nd: strum(1)\n[a]\ns: 1/d/. 1 135 -"

theorem noStuckNotes_iff_of_coveredStrum :
    ∃ c, packaged coveredStrum = .ok c ∧ c.timeline.NoStuckNotes ∧
      c.timeline.Has .noteOn 24 0 67 ∧ c.score.LeavesOpen 0 0 60 ∧
      ∀ slot channel note, c.score.LeavesOpen slot channel note →
        c.timeline.EndsAfter slot channel note := by
  have plays : ((packaged coveredStrum).toOption.any fun c => decide <|
      c.timeline.NoStuckNotes ∧ c.timeline.Has .noteOn 24 0 67 ∧ c.score.LeavesOpen 0 0 60) = true := by
    decide +kernel
  obtain ⟨c, compiled, plays⟩ := Fault.exists_ok_of_any plays
  obtain ⟨free, chord, unended⟩ := of_decide_eq_true plays
  obtain ⟨settings, -, read⟩ := Fault.bind_eq_ok.1 compiled
  exact ⟨c, compiled, free, chord, unended, (noStuckNotes_iff read).1 free⟩

def silencedStrum : Text :=
  "[composition]\nplaylist: a\n[instruments]\ns: octave=3\n[sounds]\nd: strum(1)\n[a]\ns: 1/d/."

theorem stuck_note_of_silencedStrum :
    ∃ c, packaged silencedStrum = .ok c ∧ ¬c.timeline.NoStuckNotes := by
  have stuck : ((packaged silencedStrum).toOption.any fun c =>
      decide ¬c.timeline.NoStuckNotes) = true := by
    decide +kernel
  obtain ⟨c, compiled, stuck⟩ := Fault.exists_ok_of_any stuck
  exact ⟨c, compiled, of_decide_eq_true stuck⟩

end Compilation

end ScoreScript
