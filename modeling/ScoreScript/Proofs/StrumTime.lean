import ScoreScript.Proofs.Representable
import ScoreScript.Proofs.SlotOrder
import ScoreScript.Proofs.Ticks
import ScoreScript.Proofs.Totality

set_option autoImplicit false

namespace ScoreScript

namespace Timeline

def IsBefore (t : Timeline) (slot : Int) (delay : Binary64) (later : Int) : Prop :=
  ∃ d : Rat, delay.toRat? = some d ∧ d * t.bpm * t.stepsPerBeat < (later - slot) * 60000

def EndsNextAt (t : Timeline) (slot later : Nat) (channel note : Int) : Prop :=
  slot < later ∧ t.Has .noteOff later channel note ∧
    ∀ between < later, slot < between → ¬t.Has .noteOff between channel note

def StartsInTime (t : Timeline) : Prop :=
  ∀ slot later, ∀ e ∈ (t.slots[slot]?).getD [], e.kind = .noteOn →
    t.EndsNextAt slot later e.channel e.note → t.IsBefore slot e.delay later

instance (t : Timeline) (slot : Int) (delay : Binary64) (later : Int) :
    Decidable (t.IsBefore slot delay later) :=
  decidable_of_iff
    (delay.toRat?.any fun d : Rat => d * t.bpm * t.stepsPerBeat < (later - slot) * 60000)
    (by simp [IsBefore, Option.any_eq_true])

instance (t : Timeline) (slot later : Nat) (channel note : Int) :
    Decidable (t.EndsNextAt slot later channel note) :=
  inferInstanceAs <| Decidable <| slot < later ∧ t.Has .noteOff later channel note ∧
    ∀ between < later, slot < between → ¬t.Has .noteOff between channel note

variable {t : Timeline} {slot later after : Int} {delay : Binary64}

theorem IsBefore.mono (before : t.IsBefore slot delay later) (le : later ≤ after) :
    t.IsBefore slot delay after := by
  obtain ⟨d, same, before⟩ := before
  have further : (later : Rat) ≤ after := by exact_mod_cast le
  exact ⟨d, same, by linarith⟩

theorem isBefore_zero (lt : slot < later) : t.IsBefore slot (.number 0) later := by
  have further : (slot : Rat) < later := by exact_mod_cast lt
  refine ⟨0, rfl, ?_⟩
  rw [zero_mul, zero_mul]
  linarith

theorem startsInTime_iff : t.StartsInTime ↔ ∀ slot later : Nat, slot < later →
    ∀ e ∈ (t.slots[slot]?).getD [], e.kind = .noteOn → t.Has .noteOff later e.channel e.note →
      t.IsBefore slot e.delay later := by
  constructor
  · intro inTime slot later lt e member starts ends
    have some : ∃ n, slot < n ∧ t.Has .noteOff n e.channel e.note := ⟨later, lt, ends⟩
    have next := inTime slot (Nat.find some) e member starts ⟨(Nat.find_spec some).1,
      (Nat.find_spec some).2, fun between early lt ends => Nat.find_min some early ⟨lt, ends⟩⟩
    exact next.mono (by exact_mod_cast Nat.find_min' some ⟨lt, ends⟩)
  · exact fun inTime slot later e member starts next =>
      inTime slot later next.1 e member starts next.2.1

instance (t : Timeline) : Decidable t.StartsInTime :=
  decidable_of_iff (∀ slot < t.slots.length, ∀ later < t.slots.length,
      ∀ e ∈ (t.slots[slot]?).getD [], e.kind = .noteOn →
        t.EndsNextAt slot later e.channel e.note → t.IsBefore slot e.delay later) <| by
    constructor
    · intro inTime slot later e member starts next
      have inside : slot < t.slots.length := by
        by_contra beyond
        rw [List.getElem?_eq_none (Nat.not_lt.1 beyond)] at member
        cases member
      have inside' : later < t.slots.length :=
        Nat.lt_of_not_le fun beyond => not_has_of_length_le beyond next.2.1
      exact inTime slot inside later inside' e member starts next
    · exact fun inTime slot _ later _ => inTime slot later

end Timeline

namespace Performance

open Placed

/-! ### Strums in their chain -/

structure Onset.Strums (o : Onset) (k : Nat) (delay note : Int) : Prop where
  sound : o.step.isError = false
  shape : ∃ order decay, o.step.ornament = some (.strum order delay decay)
  turn : o.step.playingOrder[k]? = some note

variable {samples : Table Sample} {floor channel : Int}

theorem strums_of_mem_startsOf {length : Int} {o : Onset} {p : Placed} {e : Event}
    (placed : p ∈ startsOf samples floor channel length o) (member : e ∈ p.events)
    (starts : e.kind = .noteOn) :
    e.delay = .number 0 ∨ p.slot = o.slot ∧ ∃ k delay, o.Strums k delay e.note ∧
      e.delay = .ofInt (k * delay) := by
  by_cases strum : ∃ order delay decay, o.step.ornament = some (.strum order delay decay)
  next =>
    obtain ⟨order, delay, decay, shape⟩ := strum
    unfold startsOf at placed
    split at placed
    next => simp at placed
    next clean =>
      simp only [Performance.starts, shape, List.flatMap_cons, List.flatMap_nil, List.append_nil,
        List.mem_append, Figure.placed, strum_eq_mapIdx] at placed
      rcases placed with note | sample
      · obtain ⟨k, inOrder, rfl⟩ := List.mem_mapIdx.1 note
        obtain rfl := List.mem_singleton.1 member
        have turn : o.step.playingOrder[k]? = some o.step.playingOrder[k] :=
          List.getElem?_eq_getElem inOrder
        exact .inr ⟨rfl, k, delay, ⟨by simpa using clean, ⟨order, decay, shape⟩, turn⟩, rfl⟩
      · obtain ⟨name, sample, rfl⟩ := mem_samplePlaced sample
        obtain rfl := List.mem_singleton.1 member
        cases starts
  next =>
    -- no other step has late notes
    cases gives_of_mem_startsOf placed e member with
    | noteOn => exact .inl rfl
    | strummed _ shape => exact absurd ⟨_, _, _, shape⟩ strum
    | @message m => cases m <;> cases starts
    | noteOff | sample => cases starts

theorem mem_startsOf_of_strums {length : Int} {o : Onset} {k : Nat} {delay note : Int}
    (strums : o.Strums k delay note) :
    ∃ p ∈ startsOf samples floor channel length o, p.slot = o.slot ∧ ∃ e ∈ p.events,
      e.kind = .noteOn ∧ e.channel = channel ∧ e.note = note ∧ e.delay = .ofInt (k * delay) := by
  obtain ⟨sound, ⟨order, decay, shape⟩, turn⟩ := strums
  obtain ⟨inOrder, same⟩ := List.getElem?_eq_some_iff.1 turn
  let v : Voice := ⟨channel, clampData o.step.velocity⟩
  refine ⟨.one o.slot (v.strummed delay decay floor k note), ?_, rfl, _, List.mem_singleton_self _,
    rfl, rfl, rfl, rfl⟩
  simp only [startsOf, sound, Performance.starts, shape, List.flatMap_cons, Figure.placed,
    strum_eq_mapIdx]
  exact List.mem_append_left _ (List.mem_mapIdx.2 ⟨k, inOrder, by rw [same]⟩)

theorem strums_of_mem_chainPlaced {chain : List Onset} {p : Placed} {e : Event}
    (placed : p ∈ chainPlaced samples floor channel chain) (member : e ∈ p.events)
    (starts : e.kind = .noteOn) :
    e.delay = .number 0 ∨ ∃ first, chain.head? = some first ∧ p.slot = first.slot ∧
      ∃ k delay, first.Strums k delay e.note ∧ e.delay = .ofInt (k * delay) := by
  cases chain with
  | nil => simp [chainPlaced] at placed
  | cons first rest =>
    have noMessage {o : Onset} (message : p ∈ messagesOf channel o) : False :=
      not_hasAt_messagesOf (.inl rfl) ⟨p, message, rfl, e, member, starts, rfl, rfl⟩
    simp only [chainPlaced, List.mem_append, List.mem_flatMap] at placed
    rcases placed with ((message | start) | ⟨o, -, message⟩) | ending
    · exact (noMessage message).elim
    · rcases strums_of_mem_startsOf start member starts with prompt | ⟨place, late⟩
      · exact .inl prompt
      · exact .inr ⟨first, rfl, place, late⟩
    · exact (noMessage message).elim
    · obtain ⟨-, -, -, ends, -⟩ := hasAt_endsOf.1 ⟨p, ending, rfl, e, member, starts, rfl, rfl⟩
      cases ends

namespace Part

def StrumsAt (p : Part) (slot : Int) (k : Nat) (delay note : Int) : Prop :=
  ∃ first, p.chain.head? = some first ∧ p.start + first.slot = slot ∧ first.Strums k delay note

/-- Whether a part is still strumming a note when another one ends it in a later slot. -/
def IsCutOffBy (t : Timeline) (p other : Part) : Prop :=
  p.channel = other.channel ∧ ∃ slot later k delay note, p.StrumsAt slot k delay note ∧
    slot < later ∧ EndsAt (later - other.start) note other.chain ∧
    ¬t.IsBefore slot (.ofInt (k * delay)) later

theorem strumsAt_of_mem_placed {p : Part} {q : Placed} {e : Event}
    (placed : q ∈ p.placed samples floor) (member : e ∈ q.events) (starts : e.kind = .noteOn) :
    e.channel = p.channel ∧ (e.delay = .number 0 ∨
      ∃ k delay, p.StrumsAt q.slot k delay e.note ∧ e.delay = .ofInt (k * delay)) := by
  obtain ⟨q, inChain, rfl⟩ := List.mem_map.1 placed
  obtain ⟨same, -⟩ := hasAt_chainPlaced_noteOn.1 ⟨q, inChain, rfl, e, member, starts, rfl, rfl⟩
  refine ⟨same.symm, ?_⟩
  rcases strums_of_mem_chainPlaced inChain member starts with prompt | ⟨first, front, place, k, delay, late⟩
  · exact .inl prompt
  · exact .inr ⟨k, delay, ⟨first, front, by rw [shift, place], late.1⟩, late.2⟩

theorem mem_placed_of_strumsAt {p : Part} {slot : Int} {k : Nat} {delay note : Int}
    (strums : p.StrumsAt slot k delay note) :
    ∃ q ∈ p.placed samples floor, q.slot = slot ∧ ∃ e ∈ q.events,
      e.kind = .noteOn ∧ e.channel = p.channel ∧ e.note = note ∧ e.delay = .ofInt (k * delay) := by
  obtain ⟨first, front, rfl, strums⟩ := strums
  obtain ⟨rest, steps⟩ := List.head?_eq_some_iff.1 front
  obtain ⟨q, inStart, place, found⟩ := @mem_startsOf_of_strums samples floor p.channel
    (chainLength (first :: rest)) _ _ _ _ strums
  refine ⟨shift p.start q, List.mem_map_of_mem ?_, by rw [shift, place], found⟩
  rw [steps]
  simp only [chainPlaced, List.mem_append]
  exact .inl (.inl (.inr inStart))

theorem opens_of_strumsAt {p : Part} {slot : Int} {k : Nat} {delay note : Int}
    (strums : p.StrumsAt slot k delay note) : p.opens = slot := by
  obtain ⟨first, front, place, -⟩ := strums
  rw [opens, front]
  exact place

theorem releasesAt_of_strumsAt {p : Part} {slot place : Int} {k : Nat} {delay note other : Int}
    (strums : p.StrumsAt slot k delay note) (ends : EndsAt place other p.chain) :
    ReleasesAt place other p.chain := by
  obtain ⟨first, front, -, -, ⟨order, decay, shape⟩, -⟩ := strums
  obtain ⟨rest, steps⟩ := List.head?_eq_some_iff.1 front
  rw [steps] at ends ⊢
  rcases ends with ⟨-, damped⟩ | released
  · rw [Onset.Damps, shape] at damped
    exact damped.elim
  · exact released

def IsNote (p : Part) : Prop := ∀ o ∈ p.chain, o.step.isNote = true

def HasRoom (t : Timeline) (p : Part) : Prop :=
  ∀ k delay note, p.StrumsAt p.opens k delay note → t.IsBefore p.opens (.ofInt (k * delay)) p.closes

end Part

end Performance

open Performance

namespace Score

variable {c : Score} {floor : Int} {timeline : Timeline}

theorem mem_slots_iff (regular : c.Regular) (done : c.timeline floor = .ok timeline) {slot : Nat}
    {e : Event} : e ∈ (timeline.slots[slot]?).getD [] ↔
      ∃ p ∈ c.parts, ∃ q ∈ p.placed c.samples floor, q.slot = slot ∧ e ∈ q.events := by
  rw [getElem?_slots regular done, scheduledEvents_eq regular, Placed.mem_eventsAt]
  simp only [List.mem_flatMap]
  constructor
  · rintro ⟨q, ⟨p, inParts, placed⟩, found⟩
    exact ⟨p, inParts, q, placed, found⟩
  · rintro ⟨p, inParts, q, placed, found⟩
    exact ⟨q, ⟨p, inParts, placed⟩, found⟩

theorem has_noteOff_iff (regular : c.Regular) (done : c.timeline floor = .ok timeline) {slot : Nat}
    {channel note : Int} : timeline.Has .noteOff slot channel note ↔
      ∃ p ∈ c.parts, p.channel = channel ∧ EndsAt (slot - p.start) note p.chain := by
  rw [Timeline.has_iff (getElem?_slots regular done slot), scheduledEvents_eq regular,
    Placed.hasAt_flatMap]
  simp only [Part.placed, Placed.hasAt_shift, hasAt_chainPlaced_noteOff]

theorem delay_of_noteOff (regular : c.Regular) (done : c.timeline floor = .ok timeline) {slot : Nat}
    {e : Event} (member : e ∈ (timeline.slots[slot]?).getD []) (ends : e.kind = .noteOff) :
    e.delay = .number 0 := by
  cases here : timeline.slots[slot]? with
  | none =>
    rw [here] at member
    cases member
  | some events =>
    rw [here] at member
    obtain ⟨_, -, _, -, _, -, _, -, gives⟩ :=
      gives_of_mem_slots regular done (List.mem_of_getElem? here) member
    cases gives with
    | noteOff => rfl
    | @message m => cases m <;> cases ends
    | noteOn | strummed | sample => cases ends

theorem slot_parts (regular : c.Regular) {p : Part} (member : p ∈ c.parts) {o : Onset}
    (inChain : o ∈ p.chain) : 0 ≤ p.start + o.slot := by
  obtain ⟨s, played, i, -, -, -, inRow⟩ := mem_parts.1 member
  have forward := Int.le_of_lt regular.forward
  have started := start_nonneg forward (Int.le_refl 0) played
  have placed := slot_instrumentOnsets forward ((regular_of_mem_schedule regular played).lasting i.name)
    (mem_of_mem_chains inRow inChain)
  dsimp only at started
  omega

theorem startsInTime_iff (regular : c.Regular) (done : c.timeline floor = .ok timeline) :
    timeline.StartsInTime ↔ ∀ p ∈ c.parts, ∀ q ∈ c.parts, ¬p.IsCutOffBy timeline q := by
  rw [Timeline.startsInTime_iff]
  constructor
  · rintro inTime p inParts q inParts' ⟨same, slot, later, k, delay, note, strums, lt, ends, late⟩
    obtain ⟨first, front, place, -⟩ := id strums
    have nonneg := slot_parts regular inParts (List.mem_of_head? front)
    obtain ⟨slot, rfl⟩ := Int.eq_ofNat_of_zero_le (by omega : 0 ≤ slot)
    obtain ⟨later, rfl⟩ := Int.eq_ofNat_of_zero_le (by omega : 0 ≤ later)
    obtain ⟨r, placed, here, e, member, starts, channel, rfl, delayed⟩ :=
      @Part.mem_placed_of_strumsAt c.samples floor _ _ _ _ _ strums
    have inSlot := (mem_slots_iff regular done).2 ⟨p, inParts, r, placed, here, member⟩
    have ended : timeline.Has .noteOff later e.channel e.note :=
      (has_noteOff_iff regular done).2 ⟨q, inParts', by rw [channel, same], ends⟩
    apply late
    rw [← delayed]
    exact inTime slot later (by omega) e inSlot starts ended
  · intro uncut slot later lt e member starts ended
    obtain ⟨p, inParts, r, placed, here, inEvents⟩ := (mem_slots_iff regular done).1 member
    obtain ⟨q, inParts', same, ends⟩ := (has_noteOff_iff regular done).1 ended
    obtain ⟨channel, prompt | ⟨k, delay, strums, late⟩⟩ :=
      Part.strumsAt_of_mem_placed placed inEvents starts
    · rw [prompt]
      exact Timeline.isBefore_zero (by omega)
    · rw [here] at strums
      by_contra cut
      rw [late] at cut
      exact uncut p inParts q inParts'
        ⟨by rw [← channel, same], slot, later, k, delay, e.note, strums, by omega, ends, cut⟩

theorem parts_cases (regular : c.Regular) (own : c.OwnChannels) (filled : c.IsFilled) {p q : Part}
    (member : p ∈ c.parts) (member' : q ∈ c.parts) (same : p.channel = q.channel) :
    p = q ∨ p.closes ≤ q.opens ∨ q.closes ≤ p.opens := by
  have follow := parts_follow regular own filled
  refine List.Pairwise.forall_of_forall_of_flip
    (R := fun p q => p.channel = q.channel → p = q ∨ p.closes ≤ q.opens ∨ q.closes ≤ p.opens)
    (fun _ _ _ => .inl rfl) ?_ ?_ member member' same
  · exact follow.imp fun apart same => .inr (.inl (apart same))
  · exact follow.imp fun apart same => .inr (.inr (apart same.symm))

theorem startsInTime_of_hasRoom (regular : c.Regular) (own : c.OwnChannels) (filled : c.IsFilled)
    (done : c.timeline floor = .ok timeline) (room : ∀ p ∈ c.parts, p.HasRoom timeline) :
    timeline.StartsInTime := by
  rw [startsInTime_iff regular done]
  rintro p member q member' ⟨same, slot, later, k, delay, note, strums, lt, ends, late⟩
  obtain rfl := Part.opens_of_strumsAt strums
  have bounds := (spans_part regular filled member').1.ends ends
  have reach : p.closes ≤ later := by
    -- the parts of a channel take turns, so the end is its own or that of a later part
    rcases parts_cases regular own filled member member' same with rfl | before | after
    · have := (spans_part regular filled member).2 _ _ (Part.releasesAt_of_strumsAt strums ends)
      omega
    · omega
    · omega
  exact late ((room p member k delay note strums).mono reach)

theorem endsAt_closes (regular : c.Regular) (filled : c.IsFilled) {p : Part} (member : p ∈ c.parts)
    (isNote : p.IsNote) {slot : Int} {k : Nat} {delay note : Int}
    (strums : p.StrumsAt slot k delay note) : EndsAt (p.closes - p.start) note p.chain := by
  obtain ⟨s, played, i, -, -, -, inRow⟩ := mem_parts.1 member
  have tied : Measure.TiedRow Step.tone ((instrumentOnsets c s i).map Onset.step) :=
    tiedRow_instrumentOnsets (regular_of_mem_schedule regular played) i
  have released := (spans_part regular filled member).2
  obtain ⟨first, front, -, sound, -, turn⟩ := strums
  obtain ⟨rest, steps⟩ := List.head?_eq_some_iff.1 front
  have pitch : note ∈ first.step.pitches :=
    mem_pitches_of_mem_playingOrder (List.mem_of_getElem? turn)
  rw [steps] at inRow released ⊢
  have ending := last_ends_pitches (view_eq_of_mem_chains tied inRow) sound
    (isNote first (by simp [steps])) pitch
  have ends : ReleasesAt (rest.getLastD first).finish note (first :: rest) :=
    ⟨ending.1, rfl, ending.2⟩
  rw [← released _ _ ends]
  exact .inr ends

theorem hasRoom_of_startsInTime (regular : c.Regular) (filled : c.IsFilled)
    (done : c.timeline floor = .ok timeline) (inTime : timeline.StartsInTime) {p : Part}
    (member : p ∈ c.parts) (isNote : p.IsNote) : p.HasRoom timeline := by
  intro k delay note strums
  have ends := endsAt_closes regular filled member isNote strums
  have lt := ((spans_part regular filled member).1.ends ends).1
  by_contra late
  exact (startsInTime_iff regular done).1 inTime p member p member
    ⟨rfl, p.opens, p.closes, k, delay, note, strums, by omega, ends, late⟩

/-! ### Strums of few notes -/

theorem isInfinite_of_strumsAt (regular : c.Regular) (ornamented : c.IsOrnamented)
    (done : c.timeline floor = .ok timeline) {p : Part} (member : p ∈ c.parts) {slot : Int} {k : Nat}
    {delay note : Int} (strums : p.StrumsAt slot k delay note) :
    (Binary64.ofInt (k * delay)).isInfinite = false := by
  obtain ⟨q, placed, -, e, inEvents, -, -, -, late⟩ :=
    @Part.mem_placed_of_strumsAt c.samples floor _ _ _ _ _ strums
  have inScore : q ∈ c.parts.flatMap (Part.placed c.samples floor) :=
    List.mem_flatMap.2 ⟨p, member, placed⟩
  rw [← scheduledEvents_eq regular] at inScore
  obtain ⟨⟨start, s⟩, played, moved⟩ := List.mem_flatMap.1 inScore
  obtain ⟨r, inSection, rfl⟩ := List.mem_map.1 moved
  -- an endless event is a fault of the timeline
  by_contra infinite
  have endless : c.IsEndless floor :=
    ⟨s, mem_of_mem_schedule played, r, inSection, List.any_eq_true.2
      ⟨e, inEvents, by rw [late]; exact Bool.eq_true_of_not_eq_false infinite⟩⟩
  rw [(timeline_failsJust_of_isOrnamented regular ornamented).fails endless] at done
  cases done

theorem isBefore_of_le (slow : 0 ≤ timeline.bpm) (fast : timeline.bpm ≤ 255)
    (grid : timeline.stepsPerBeat = 12 ∨ timeline.stepsPerBeat = 6) {k : Nat} {delay slot later : Int}
    (low : 3 ≤ delay) (high : delay ≤ 15) (finite : (Binary64.ofInt (k * delay)).isInfinite = false)
    (lt : slot < later) (few : k ≤ later - slot) : timeline.IsBefore slot (.ofInt (k * delay)) later := by
  by_cases first : k = 0
  · subst first
    rw [Int.natCast_zero, Int.zero_mul]
    exact Timeline.isBefore_zero lt
  · have one : (1 : Rat) ≤ k := by exact_mod_cast Nat.one_le_iff_ne_zero.2 first
    have least : (1 : Rat) ≤ (k * delay : Int) := by
      have : (1 : Int) ≤ k * delay := one_le_mul_of_one_le_of_one_le (by omega) (by omega)
      exact_mod_cast this
    have most : ((k * delay : Int) : Rat) ≤ k * 15 := by
      have : (k : Int) * delay ≤ k * 15 := Int.mul_le_mul_of_nonneg_left high (Int.natCast_nonneg k)
      exact_mod_cast this
    have normal : (2 : Rat) ^ (-1022 : Int) ≤ (k * delay : Int) :=
      le_trans (zpow_le_one_of_nonpos₀ (by norm_num) (by omega)) least
    obtain ⟨r, same, near⟩ := Binary64.near_ofRat normal finite
    have nonneg : 0 ≤ r := (near.pos (by linarith)).le
    -- rounding adds less than a millisecond to each note's fifteen
    have bound : r ≤ 16 * k := by
      have := near.2
      rw [pow_one] at this
      linarith
    have pace : (0 : Rat) ≤ timeline.bpm := by exact_mod_cast slow
    have fast : (timeline.bpm : Rat) ≤ 255 := by exact_mod_cast fast
    have fine : (0 : Rat) ≤ timeline.stepsPerBeat := by
      exact_mod_cast (by omega : 0 ≤ timeline.stepsPerBeat)
    have grid : (timeline.stepsPerBeat : Rat) ≤ 12 := by
      exact_mod_cast (by omega : timeline.stepsPerBeat ≤ 12)
    have few : (k : Rat) ≤ later - slot := by exact_mod_cast few
    refine ⟨r, by rw [Binary64.ofInt, same]; rfl, ?_⟩
    calc r * timeline.bpm * timeline.stepsPerBeat
        ≤ 16 * k * 255 * 12 := by gcongr
      _ < (later - slot) * 60000 := by linarith

theorem pace_timeline (done : c.timeline floor = .ok timeline) :
    timeline.bpm = c.bpm ∧ timeline.stepsPerBeat = c.grid.stepsPerBeat := by
  obtain ⟨slots, -, same⟩ := Fault.bind_eq_ok.1 done
  cases same
  exact ⟨rfl, rfl⟩

theorem isBefore_of_few (regular : c.Regular) (ornamented : c.IsOrnamented) (paced : c.IsPaced)
    (done : c.timeline floor = .ok timeline) {p : Part} (member : p ∈ c.parts)
    (lasts : p.opens < p.closes) {k : Nat} {delay note : Int} (strums : p.StrumsAt p.opens k delay note)
    (few : k ≤ p.closes - p.opens) : timeline.IsBefore p.opens (.ofInt (k * delay)) p.closes := by
  have finite := isInfinite_of_strumsAt regular ornamented done member strums
  obtain ⟨s, played, i, -, -, -, inRow⟩ := mem_parts.1 member
  obtain ⟨first, front, -, -, ⟨order, decay, shape⟩, -⟩ := strums
  obtain ⟨measure, inSection, inMeasure⟩ :=
    mem_instrumentOnsets (mem_of_mem_chains inRow (List.mem_of_head? front))
  have loaded := mem_sections_of_mem_playedSections (mem_of_mem_schedule played)
  have bounds := (ornamented s loaded i.name measure inSection first.step inMeasure _ shape).1
  obtain ⟨bpm, grid⟩ := pace_timeline done
  apply isBefore_of_le _ _ _ bounds.1 bounds.2 finite lasts few
  · rw [bpm]
    exact paced.slow
  · rw [bpm]
    exact paced.fast
  · rw [grid]
    exact paced.grid

end Score

namespace Compilation

variable {settings : Settings} {earlier : Option Selection} {text : Text} {c : Compilation}

theorem origin (compiled : ofText settings earlier text = .ok c) :
    c.score.IsOrnamented ∧ c.score.IsPaced := by
  rw [ofText_eq] at compiled
  obtain ⟨r, read, timed⟩ := Fault.bind_eq_ok.1 compiled
  obtain ⟨timeline, -, same⟩ := Fault.bind_eq_ok.1 timed
  cases same
  have paced := Score.isPaced_ofSections read
  exact ⟨Score.isOrnamented_ofSections read, paced.slow, paced.fast, paced.grid⟩

/-- In a compiled timeline the notes of strums start before they are ended just if no part is cut off while
it strums. Where instruments have channels of their own and no measure is overfull, it takes that every
strum is over when its part closes, which is so if no note of it comes after more notes than the part has
slots. In the track of its channel a note stands before its end just if it comes half a tick earlier. -/
theorem strums_in_time_iff (compiled : ofText settings earlier text = .ok c) :
    (c.timeline.StartsInTime ↔
      ∀ p ∈ c.score.parts, ∀ q ∈ c.score.parts, ¬p.IsCutOffBy c.timeline q) ∧
    (c.score.IsFilled →
      (c.timeline.StartsInTime → ∀ p ∈ c.score.parts, p.IsNote → p.HasRoom c.timeline) ∧
      (c.score.OwnChannels → (∀ p ∈ c.score.parts, p.HasRoom c.timeline) → c.timeline.StartsInTime)) ∧
    (∀ p ∈ c.score.parts, p.opens < p.closes → ∀ k delay note, p.StrumsAt p.opens k delay note →
      k ≤ p.closes - p.opens → c.timeline.IsBefore p.opens (.ofInt (k * delay)) p.closes) ∧
    ∀ slot later : Nat, slot < later → later < 2 ^ 45 → ∀ e ∈ (c.timeline.slots[slot]?).getD [],
      ∀ f ∈ (c.timeline.slots[later]?).getD [], f.IsEndOf e →
      ∀ delay : Nat, delay < 2 ^ 40 → e.delay = .number delay →
      ∃ a b, Midi.tickOf c.timeline Midi.defaultResolution slot e = .ok a ∧
        Midi.tickOf c.timeline Midi.defaultResolution later f = .ok b ∧
        ∀ events : List Midi.Timed, ⟨a, e⟩ ∈ events → ⟨b, f⟩ ∈ events →
          ([⟨a, e⟩, ⟨b, f⟩].Sublist (Midi.sorted events) ↔
            (delay * c.timeline.bpm + 32) * c.timeline.stepsPerBeat ≤ ((later : Int) - slot) * 60000) := by
  obtain ⟨regular, floor, done⟩ := Compilation.regular compiled
  obtain ⟨ornamented, paced⟩ := origin compiled
  obtain ⟨bpm, grid⟩ := Score.pace_timeline done
  refine ⟨Score.startsInTime_iff regular done, fun filled => ⟨?_, ?_⟩, ?_, ?_⟩
  · exact fun inTime p member isNote =>
      Score.hasRoom_of_startsInTime regular filled done inTime member isNote
  · exact fun own room => Score.startsInTime_of_hasRoom regular own filled done room
  · exact fun p member lasts k delay note strums few =>
      Score.isBefore_of_few regular ornamented paced done member lasts strums few
  · intro slot later lt bounded e _ f member ends delay soon late
    have prompt := Score.delay_of_noteOff regular done member ends.2.1
    apply Midi.sublist_track_iff _ _ _ lt bounded soon late prompt ends
    · rw [grid]
      exact paced.grid
    · rw [bpm]
      exact paced.slow
    · rw [bpm]
      exact paced.fast

theorem startsInTime_of_strummedChord :
    ∃ c, packaged strummedChord = .ok c ∧ c.timeline.StartsInTime := by
  have plays : ((packaged strummedChord).toOption.any fun c => decide (c.score.OwnChannels ∧
      c.score.IsFilled ∧ ∀ p ∈ c.score.parts, p.opens < p.closes ∧
        ∀ o ∈ p.chain.head?, (o.step.playingOrder.length : Int) ≤ p.closes - p.opens)) = true := by
    decide +kernel
  obtain ⟨c, compiled, plays⟩ := Fault.exists_ok_of_any plays
  obtain ⟨own, filled, short⟩ := of_decide_eq_true plays
  obtain ⟨settings, -, read⟩ := Fault.bind_eq_ok.1 compiled
  obtain ⟨-, exactly, inTime, -⟩ := strums_in_time_iff read
  refine ⟨c, compiled, (exactly filled).2 own fun p member k delay note strums => ?_⟩
  obtain ⟨lasts, few⟩ := short p member
  obtain ⟨first, front, -, -, -, turn⟩ := id strums
  have early := (List.getElem?_eq_some_iff.1 turn).1
  have := few first front
  exact inTime p member lasts k delay note strums (by omega)

def rapidStrum : Text :=
  "[composition]\nplaylist: a\nBPM: 250\n[instruments]\ns: octave=3\n" ++
    "[sounds]\nd: strum(1 2 3), msec=15\n[a]\ns: (((((135/d))))) . . ."

theorem rapidStrum_late : ∃ c, packaged rapidStrum = .ok c ∧ ¬c.timeline.StartsInTime := by
  have late : ((packaged rapidStrum).toOption.any fun c => decide ¬c.timeline.StartsInTime) = true := by
    decide +kernel
  obtain ⟨c, compiled, late⟩ := Fault.exists_ok_of_any late
  exact ⟨c, compiled, of_decide_eq_true late⟩

end Compilation

end ScoreScript
