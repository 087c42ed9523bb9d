import ScoreScript.Proofs.Filled
import ScoreScript.Proofs.Sounding
import ScoreScript.Proofs.StuckNotes

set_option autoImplicit false

namespace ScoreScript

namespace Placed

def EndsFirst (placed : List Placed) : Prop :=
  (placed.flatMap entries).Pairwise fun entry later =>
    entry.1 = later.1 → ¬later.2.IsEndOf entry.2

def Clash (first second : List Placed) : Prop :=
  ∃ slot channel note,
    HasAt first .noteOn slot channel note ∧ HasAt second .noteOff slot channel note

theorem hasAt_iff_entries {placed : List Placed} {kind : Event.Kind} {slot channel note : Int} :
    HasAt placed kind slot channel note ↔ ∃ e, (slot, e) ∈ placed.flatMap entries ∧
      e.kind = kind ∧ e.channel = channel ∧ e.note = note := by
  simp only [HasAt, List.mem_flatMap, entries, List.mem_map]
  constructor
  · rintro ⟨p, member, rfl, e, inEvents, same⟩
    exact ⟨e, ⟨p, member, e, inEvents, rfl⟩, same⟩
  · rintro ⟨_, ⟨p, member, e, inEvents, entry⟩, same⟩
    cases entry
    exact ⟨p, member, rfl, _, inEvents, same⟩

theorem clash_iff {first second : List Placed} :
    Clash first second ↔ ∃ entry ∈ first.flatMap entries, ∃ later ∈ second.flatMap entries,
      entry.1 = later.1 ∧ later.2.IsEndOf entry.2 := by
  simp only [Clash, hasAt_iff_entries, Event.IsEndOf]
  constructor
  · rintro ⟨slot, _, _, ⟨e, member, starts, rfl, rfl⟩, f, laterMember, ends, channel, note⟩
    exact ⟨_, member, _, laterMember, rfl, starts, ends, channel, note⟩
  · rintro ⟨⟨slot, e⟩, member, ⟨_, f⟩, laterMember, rfl, starts, ends, channel, note⟩
    exact ⟨slot, _, _, ⟨e, member, starts, rfl, rfl⟩, f, laterMember, ends, channel, note⟩

theorem endsFirst_append {first second : List Placed} :
    EndsFirst (first ++ second) ↔ EndsFirst first ∧ EndsFirst second ∧ ¬Clash first second := by
  rw [EndsFirst, List.flatMap_append, List.pairwise_append, clash_iff]
  simp only [EndsFirst, not_exists, not_and]

theorem endsFirst_flatMap {α : Type} {items : List α} {placed : α → List Placed} :
    EndsFirst (items.flatMap placed) ↔ (∀ item ∈ items, EndsFirst (placed item)) ∧
      items.Pairwise fun item later => ¬Clash (placed item) (placed later) := by
  simp only [EndsFirst, List.flatMap_assoc, List.pairwise_flatMap, clash_iff, not_exists, not_and]

theorem endsFirst_of_not_noteOn {placed : List Placed}
    (silent : ∀ slot channel note, ¬HasAt placed .noteOn slot channel note) : EndsFirst placed := by
  refine List.pairwise_of_forall_mem_list fun entry member _ _ _ ends => ?_
  exact silent entry.1 entry.2.channel entry.2.note
    (hasAt_iff_entries.2 ⟨entry.2, member, ends.1, rfl, rfl⟩)

theorem endsFirst_of_not_noteOff {placed : List Placed}
    (held : ∀ slot channel note, ¬HasAt placed .noteOff slot channel note) : EndsFirst placed := by
  refine List.pairwise_of_forall_mem_list fun _ _ later member _ ends => ?_
  exact held later.1 later.2.channel later.2.note
    (hasAt_iff_entries.2 ⟨later.2, member, ends.2.1, rfl, rfl⟩)

theorem flatMap_entries_shift (offset : Int) (placed : List Placed) :
    (placed.map (shift offset)).flatMap entries =
      (placed.flatMap entries).map fun entry => (offset + entry.1, entry.2) := by
  simp [List.flatMap_map, List.map_flatMap, entries, shift, Function.comp_def]

theorem endsFirst_shift {offset : Int} {placed : List Placed} :
    EndsFirst (placed.map (shift offset)) ↔ EndsFirst placed := by
  simp only [EndsFirst, flatMap_entries_shift, List.pairwise_map, Int.add_right_inj]

theorem eventsAt_eq_entries (placed : List Placed) (slot : Nat) :
    eventsAt placed slot =
      ((placed.flatMap entries).filter fun entry => entry.1 = (slot : Int)).map Prod.snd := by
  induction placed with
  | nil => rfl
  | cons p rest ih =>
    rw [eventsAt_cons, ih, List.flatMap_cons, List.filter_append, List.map_append]
    congr 1
    by_cases here : p.slot = slot <;> simp [entries, here, List.filter_map, Function.comp_def]

theorem endsFirst_iff_eventsAt {placed : List Placed} (nonneg : ∀ p ∈ placed, 0 ≤ p.slot) :
    EndsFirst placed ↔ ∀ slot, Event.EndsFirst (eventsAt placed slot) := by
  simp only [EndsFirst, Event.EndsFirst, eventsAt_eq_entries, List.pairwise_map, List.pairwise_filter,
    decide_eq_true_eq]
  simp only [List.pairwise_iff_forall_sublist]
  constructor
  · intro ordered slot entry later inside here there
    exact ordered inside (here.trans there.symm)
  · intro ordered entry later inside same
    obtain ⟨p, member, inEntries⟩ := List.mem_flatMap.1 (inside.subset (List.mem_cons_self ..))
    obtain ⟨_, _, rfl⟩ := List.mem_map.1 inEntries
    have place : p.slot = (p.slot.toNat : Int) := (Int.toNat_of_nonneg (nonneg p member)).symm
    exact ordered p.slot.toNat inside place (same.symm.trans place)

end Placed

namespace Performance

open Placed

/-! ### Slots of the notes of a chain -/

def Onset.Strikes (o : Onset) (length slot note : Int) : Prop :=
  match o.step.ornament with
  | some (.arpeggio _ spacing duration) =>
    0 < spacing ∧ ∃ k : Nat, slot = o.slot + k * spacing ∧ slot < o.slot + length - duration ∧
      o.step.playingOrder[k % o.step.playingOrder.length]? = some note
  | _ => slot = o.slot ∧ note ∈ o.step.heldNotes

def Onset.Damps (o : Onset) (length slot note : Int) : Prop :=
  match o.step.ornament with
  | some (.arpeggio _ _ duration) => o.Strikes length (slot - duration) note
  | _ => False

def Onset.Releases (o : Onset) (slot note : Int) : Prop :=
  slot = o.finish ∧ o.step.isNote = true ∧ note ∈ o.step.pitches

def StartsAt (slot note : Int) : List Onset → Prop
  | [] => False
  | first :: rest =>
    first.step.isError = false ∧ first.Strikes (chainLength (first :: rest)) slot note

def ReleasesAt (slot note : Int) : List Onset → Prop
  | [] => False
  | first :: rest =>
    (rest.getLastD first).step.isError = false ∧ (rest.getLastD first).Releases slot note

def EndsAt (slot note : Int) : List Onset → Prop
  | [] => False
  | first :: rest =>
    first.step.isError = false ∧ first.Damps (chainLength (first :: rest)) slot note ∨
      ReleasesAt slot note (first :: rest)

variable {samples : Table Sample} {floor channel : Int} {kind : Event.Kind} {slot key note : Int}

theorem hasAt_arpeggio {v : Voice} {notes : List Int} {spacing duration stop : Int} {k : Nat}
    {first : Int} :
    HasAt (arpeggio v notes spacing duration stop k first) kind slot key note ↔
      v.channel = key ∧ 0 < spacing ∧ ∃ j : Nat, first + j * spacing < stop ∧
        notes[(k + j) % notes.length]? = some note ∧
        (.noteOn = kind ∧ first + j * spacing = slot ∨
          .noteOff = kind ∧ first + j * spacing + duration = slot) := by
  fun_induction arpeggio v notes spacing duration stop k first with
  | case1 k first ongoing missing =>
    have empty : notes = [] := by
      by_contra present
      have inside := Nat.mod_lt k (List.length_pos_iff.2 present)
      rw [List.getElem?_eq_getElem inside] at missing
      cases missing
    simp [empty]
  | case2 k first ongoing struck found ih =>
    have next (j : Nat) : first + spacing + j * spacing = first + (j + 1 : Nat) * spacing := by
      rw [Int.natCast_add_one, Int.add_mul, Int.one_mul]
      omega
    have turn (j : Nat) : k + 1 + j = k + (j + 1) := by omega
    simp only [hasAt_cons_one, ih, next, turn]
    constructor
    · rintro (⟨here, starts, same, rfl⟩ | ⟨here, ends, same, rfl⟩ | ⟨same, positive, j, later⟩)
      · exact ⟨same, ongoing.1, 0, by simpa using ongoing.2, found, .inl ⟨starts, by simpa using here⟩⟩
      · exact ⟨same, ongoing.1, 0, by simpa using ongoing.2, found, .inr ⟨ends, by simpa using here⟩⟩
      · exact ⟨same, positive, j + 1, later⟩
    · rintro ⟨same, positive, j, inTime, struckThen, place⟩
      -- the note of this round, or one of a later round
      cases j with
      | zero =>
        obtain rfl : struck = note := by simpa [found] using struckThen
        simp only [Int.natCast_zero, Int.zero_mul, Int.add_zero] at place
        rcases place with ⟨starts, here⟩ | ⟨ends, here⟩
        · exact .inl ⟨here, starts, same, rfl⟩
        · exact .inr (.inl ⟨here, ends, same, rfl⟩)
      | succ j => exact .inr (.inr ⟨same, positive, j, inTime, struckThen, place⟩)
  | case3 k first ended =>
    simp only [hasAt_nil, false_iff]
    rintro ⟨-, positive, j, inTime, -⟩
    have := Int.mul_nonneg (Int.natCast_nonneg j) (Int.le_of_lt positive)
    exact ended ⟨positive, by omega⟩

theorem hasAt_startsOf_noteOn {length : Int} {o : Onset} :
    HasAt (startsOf samples floor channel length o) .noteOn slot key note ↔
      channel = key ∧ o.step.isError = false ∧ o.Strikes length slot note := by
  cases error : o.step.isError with
  | true => simp [startsOf, error]
  | false =>
    simp only [startsOf, error, Performance.starts, List.flatMap_cons, List.flatMap_nil,
      List.append_nil, hasAt_append, Figure.placed, not_hasAt_samples (.inl rfl), or_false,
      Bool.false_eq_true, if_false, true_and, Onset.Strikes, Step.heldNotes]
    cases ornament : o.step.ornament with
    | none =>
      cases o.step.isNote <;> simp [hasAt_map_one, Voice.noteOn, eq_comm (a := slot)]
      tauto
    | some shape =>
      cases shape with
      | arpeggio order spacing duration =>
        simp only [hasAt_arpeggio, Nat.zero_add, true_and, reduceCtorEq, false_and, or_false]
        constructor
        · rintro ⟨same, positive, j, inTime, found, rfl⟩
          exact ⟨same, positive, j, rfl, inTime, found⟩
        · rintro ⟨same, positive, j, rfl, inTime, found⟩
          exact ⟨same, positive, j, inTime, found, rfl⟩
      | strum order delay decay =>
        simp only [hasAt_strum, true_and, eq_comm (a := slot)]
        tauto

theorem hasAt_startsOf_noteOff {length : Int} {o : Onset} :
    HasAt (startsOf samples floor channel length o) .noteOff slot key note ↔
      channel = key ∧ o.step.isError = false ∧ o.Damps length slot note := by
  cases error : o.step.isError with
  | true => simp [startsOf, error]
  | false =>
    simp only [startsOf, error, Performance.starts, List.flatMap_cons, List.flatMap_nil,
      List.append_nil, hasAt_append, Figure.placed, not_hasAt_samples (.inr rfl), or_false,
      Bool.false_eq_true, if_false, true_and, Onset.Damps, Onset.Strikes]
    cases ornament : o.step.ornament with
    | none => cases o.step.isNote <;> simp [hasAt_map_one, Voice.noteOn]
    | some shape =>
      cases shape with
      | arpeggio order spacing duration =>
        simp only [hasAt_arpeggio, Nat.zero_add, true_and, reduceCtorEq, false_and, false_or]
        constructor
        · rintro ⟨same, positive, j, inTime, found, rfl⟩
          exact ⟨same, positive, j, by omega, by omega, found⟩
        · rintro ⟨same, positive, j, here, inTime, found⟩
          exact ⟨same, positive, j, by omega, found, by omega⟩
      | strum order delay decay => simp [hasAt_strum]

/-! ### Order inside a chain -/

theorem endsFirst_arpeggio {v : Voice} {notes : List Int} {spacing duration stop : Int} {k : Nat}
    {first : Int} (lasting : 0 < duration) :
    EndsFirst (arpeggio v notes spacing duration stop k first) := by
  fun_induction arpeggio v notes spacing duration stop k first with
  | case1 => exact .nil
  | case2 k first ongoing struck found ih =>
    refine (@endsFirst_append [_, _] _).2 ⟨?_, ih, ?_⟩
    · have apart : first ≠ first + duration := by omega
      simp [EndsFirst, entries, Placed.one, apart]
    -- this note starts before any later note ends
    · rintro ⟨slot, channel, note, starts, ends⟩
      obtain ⟨-, -, j, -, -, ⟨noteOn, -⟩ | ⟨-, place⟩⟩ := hasAt_arpeggio.1 ends
      · cases noteOn
      · have := Int.mul_nonneg (Int.natCast_nonneg j) (Int.le_of_lt ongoing.1)
        simp only [hasAt_cons_one, hasAt_nil, or_false, Voice.noteOff, reduceCtorEq, false_and,
          and_false] at starts
        omega
  | case3 => exact .nil

theorem endsFirst_startsOf {length : Int} {o : Onset} (lasting : o.step.IsLasting) :
    EndsFirst (startsOf samples floor channel length o) := by
  have still (damped : ∀ slot note, ¬o.Damps length slot note) :
      EndsFirst (startsOf samples floor channel length o) :=
    endsFirst_of_not_noteOff fun slot key note ends => damped slot note (hasAt_startsOf_noteOff.1 ends).2.2
  cases ornament : o.step.ornament with
  | none => exact still fun _ _ => by simp [Onset.Damps, ornament]
  | some shape =>
    cases shape with
    | strum => exact still fun _ _ => by simp [Onset.Damps, ornament]
    | arpeggio order spacing duration =>
      have here : 0 < duration := lasting.ornament _ ornament
      unfold startsOf
      split
      · exact .nil
      · simp only [Performance.starts, ornament, List.flatMap_cons, List.flatMap_nil, List.append_nil,
          Figure.placed]
        refine endsFirst_append.2 ⟨endsFirst_arpeggio here, endsFirst_of_not_noteOn ?_, ?_⟩
        · exact fun _ _ _ => not_hasAt_samples (.inl rfl)
        · rintro ⟨_, _, _, -, ends⟩
          exact not_hasAt_samples (.inr rfl) ends

theorem hasAt_chainPlaced_noteOn {chain : List Onset} :
    HasAt (chainPlaced samples floor channel chain) .noteOn slot key note ↔
      channel = key ∧ StartsAt slot note chain := by
  cases chain with
  | nil => simp [chainPlaced, StartsAt]
  | cons first rest => simp [hasAt_chainPlaced, hasAt_startsOf_noteOn, hasAt_endsOf, StartsAt]

theorem hasAt_chainPlaced_noteOff {chain : List Onset} :
    HasAt (chainPlaced samples floor channel chain) .noteOff slot key note ↔
      channel = key ∧ EndsAt slot note chain := by
  cases chain with
  | nil => simp [chainPlaced, EndsAt]
  | cons first rest =>
    simp only [hasAt_chainPlaced (.inr rfl), hasAt_startsOf_noteOff, hasAt_endsOf, EndsAt, ReleasesAt,
      Onset.Releases, true_and, eq_comm (a := slot)]
    tauto

theorem endsFirst_chainPlaced {first : Onset} {rest : List Onset} (lasting : first.step.IsLasting) :
    EndsFirst (chainPlaced samples floor channel (first :: rest)) ↔
      ¬∃ slot note, StartsAt slot note (first :: rest) ∧ ReleasesAt slot note (first :: rest) := by
  have messages {o : Onset} : EndsFirst (messagesOf channel o) :=
    endsFirst_of_not_noteOn fun _ _ _ => not_hasAt_messagesOf (.inl rfl)
  have silent {kind : Event.Kind} (isNote : kind = .noteOn ∨ kind = .noteOff) {slot key note : Int} :
      ¬HasAt (rest.flatMap (messagesOf channel)) kind slot key note := by
    rw [hasAt_flatMap]
    rintro ⟨o, -, found⟩
    exact not_hasAt_messagesOf isNote found
  have later : EndsFirst (rest.flatMap (messagesOf channel)) :=
    endsFirst_of_not_noteOn fun _ _ _ => silent (.inl rfl)
  have ends : EndsFirst (endsOf channel (rest.getLastD first)) :=
    endsFirst_of_not_noteOn fun _ _ _ => by simp [hasAt_endsOf]
  have starts : EndsFirst (startsOf samples floor channel (chainLength (first :: rest)) first) :=
    endsFirst_startsOf lasting
  simp only [chainPlaced, endsFirst_append, messages, later, ends, starts, Clash, hasAt_append,
    not_hasAt_messagesOf (.inl rfl), silent (.inl rfl), silent (.inr rfl), false_or, or_false, and_false,
    false_and, exists_const, not_false_eq_true, true_and, hasAt_startsOf_noteOn, hasAt_endsOf, StartsAt,
    ReleasesAt, Onset.Releases, not_iff_not]
  constructor
  · rintro ⟨slot, _, note, ⟨rfl, sound, starts⟩, error, isNote, rfl, -, pitch⟩
    exact ⟨_, note, ⟨sound, starts⟩, error, rfl, isNote, pitch⟩
  · rintro ⟨_, note, ⟨sound, starts⟩, error, rfl, isNote, pitch⟩
    exact ⟨_, channel, note, ⟨rfl, sound, starts⟩, error, isNote, rfl, rfl, pitch⟩

/-! ### Chains in measures that are not overfull -/

variable {first : Onset} {rest : List Onset}

theorem startsAt_bounds (apart : (first :: rest).Pairwise fun o next => o.finish ≤ next.slot)
    (lasting : ∀ o ∈ first :: rest, o.step.IsLasting) (starts : StartsAt slot note (first :: rest)) :
    first.slot ≤ slot ∧ slot < (rest.getLastD first).finish := by
  have whole := chainLength_le apart
  have long := one_le_chainLength lasting
  obtain ⟨-, struck⟩ := starts
  unfold Onset.Strikes at struck
  split at struck
  next order spacing duration shape =>
    obtain ⟨positive, k, rfl, inTime, -⟩ := struck
    have here : 0 < duration := (lasting first (by simp)).ornament _ shape
    have := Int.mul_nonneg (Int.natCast_nonneg k) (Int.le_of_lt positive)
    omega
  · have := struck.1
    omega

theorem endsAt_bounds (apart : (first :: rest).Pairwise fun o next => o.finish ≤ next.slot)
    (lasting : ∀ o ∈ first :: rest, o.step.IsLasting) (ends : EndsAt slot note (first :: rest)) :
    first.slot < slot ∧ slot ≤ (rest.getLastD first).finish := by
  have whole := chainLength_le apart
  have long := one_le_chainLength lasting
  rcases ends with ⟨-, damped⟩ | ⟨-, released⟩
  · unfold Onset.Damps Onset.Strikes at damped
    split at damped
    next order spacing duration shape =>
      simp only at damped
      obtain ⟨positive, k, place, inTime, -⟩ := damped
      have here : 0 < duration := (lasting first (by simp)).ornament _ shape
      have := Int.mul_nonneg (Int.natCast_nonneg k) (Int.le_of_lt positive)
      omega
    · exact damped.elim
  · have := released.1
    omega

structure Spans (chain : List Onset) (low high : Int) : Prop where
  starts : ∀ {slot note}, StartsAt slot note chain → low ≤ slot ∧ slot < high
  ends : ∀ {slot note}, EndsAt slot note chain → low < slot ∧ slot ≤ high

theorem spans_of_mem_chains {row chain : List Onset}
    (apart : row.Pairwise fun o next => o.finish ≤ next.slot)
    (lasting : ∀ o ∈ row, o.step.IsLasting) (member : chain ∈ chains row) :
    ∃ first last, chain.head? = some first ∧ chain.getLast? = some last ∧
      Spans chain first.slot last.finish ∧
      ∀ slot note, ReleasesAt slot note chain → slot = last.finish := by
  cases chain with
  | nil => exact absurd member (List.nil_notMem_splitBy _ _)
  | cons first rest =>
    have inner := (chains_apart apart).1 _ member
    have long (o : Onset) (inChain : o ∈ first :: rest) := lasting o (mem_of_mem_chains member inChain)
    exact ⟨first, rest.getLastD first, rfl, by simp [List.getLast?_cons], ⟨startsAt_bounds inner long,
      endsAt_bounds inner long⟩, fun slot note ends => ends.2.1⟩

/-! ### Parts of a score -/

structure Part where
  start : Int
  channel : Int
  chain : List Onset

namespace Part

def placed (samples : Table Sample) (floor : Int) (p : Part) : List Placed :=
  (chainPlaced samples floor p.channel p.chain).map (shift p.start)

def opens (p : Part) : Int := p.start + (p.chain.head?.map Onset.slot).getD 0

def closes (p : Part) : Int := p.start + (p.chain.getLast?.map Onset.finish).getD 0

def Clashes (p later : Part) : Prop :=
  p.channel = later.channel ∧ ∃ slot note,
    StartsAt (slot - p.start) note p.chain ∧ EndsAt (slot - later.start) note later.chain

def CutsItself (p : Part) : Prop :=
  ∃ slot note, StartsAt slot note p.chain ∧ ReleasesAt slot note p.chain

theorem ends_of_mem_chains (p : Part) {row : List Onset} (member : p.chain ∈ chains row) :
    ∃ first ∈ p.chain, ∃ last ∈ p.chain,
      p.opens = p.start + first.slot ∧ p.closes = p.start + last.finish := by
  cases steps : p.chain with
  | nil =>
    rw [steps] at member
    exact absurd member (List.nil_notMem_splitBy _ _)
  | cons first rest =>
    exact ⟨first, List.mem_cons_self, rest.getLastD first, List.getLastD_mem_cons,
      by simp [opens, steps], by simp [closes, steps, List.getLast?_cons]⟩

theorem clash_placed {p later : Part} :
    Clash (p.placed samples floor) (later.placed samples floor) ↔ p.Clashes later := by
  simp only [Clash, placed, hasAt_shift, hasAt_chainPlaced_noteOn, hasAt_chainPlaced_noteOff, Clashes]
  constructor
  · rintro ⟨slot, _, note, ⟨rfl, starts⟩, same, ends⟩
    exact ⟨same.symm, slot, note, starts, ends⟩
  · rintro ⟨same, slot, note, starts, ends⟩
    exact ⟨slot, p.channel, note, ⟨rfl, starts⟩, same.symm, ends⟩

end Part

end Performance

open Performance

namespace Score

def parts (c : Score) : List Part :=
  (schedule c 0 (playedSections c)).flatMap fun entry =>
    (c.instruments.filter (·.selected)).flatMap fun i =>
      (chains (instrumentOnsets c entry.2 i)).map fun chain => ⟨entry.1, i.channel, chain⟩

variable {c : Score} {floor : Int}

theorem scheduledEvents_eq (regular : c.Regular) :
    scheduledEvents c floor (c.instruments.filter (·.selected)) (schedule c 0 (playedSections c)) =
      c.parts.flatMap (Part.placed c.samples floor) := by
  rw [scheduledEvents, parts, List.flatMap_assoc]
  refine List.flatMap_congr fun entry played => ?_
  have music := regular_of_mem_schedule regular played
  rw [sectionEvents_eq, List.map_flatMap, List.flatMap_assoc]
  refine List.flatMap_congr fun i _ => ?_
  rw [onsetPlaced_eq _ _ _ (tiedRow_instrumentOnsets music i), List.map_flatMap, List.flatMap_map]
  rfl

theorem mem_parts {p : Part} : p ∈ c.parts ↔
    ∃ s, (p.start, s) ∈ schedule c 0 (playedSections c) ∧
      ∃ i ∈ c.instruments, i.selected = true ∧ i.channel = p.channel ∧
        p.chain ∈ chains (instrumentOnsets c s i) := by
  simp only [parts, List.mem_flatMap, List.mem_map, List.mem_filter]
  constructor
  · rintro ⟨⟨start, s⟩, played, i, ⟨declared, selected⟩, chain, member, rfl⟩
    exact ⟨s, played, i, declared, selected, rfl, member⟩
  · rintro ⟨s, played, i, declared, selected, same, member⟩
    exact ⟨(p.start, s), played, i, ⟨declared, selected⟩, p.chain, member, by rw [same]⟩

theorem endsFirst_placed (regular : c.Regular) {p : Part} (member : p ∈ c.parts) :
    Placed.EndsFirst (p.placed c.samples floor) ↔ ¬p.CutsItself := by
  obtain ⟨s, played, i, -, -, -, inRow⟩ := mem_parts.1 member
  have music := regular_of_mem_schedule regular played
  have whole := isWhole_of_mem_chains (tiedRow_instrumentOnsets music i) _ inRow
  obtain ⟨first, rest, steps⟩ := List.exists_cons_of_ne_nil whole.present
  have lasting : first.step.IsLasting :=
    lasting_instrumentOnsets (music.lasting i.name) (mem_of_mem_chains inRow (by simp [steps]))
  rw [Part.placed, Placed.endsFirst_shift, Part.CutsItself, steps]
  exact endsFirst_chainPlaced lasting

end Score

namespace Timeline

def EndsFirst (t : Timeline) : Prop := ∀ events ∈ t.slots, Event.EndsFirst events
deriving Decidable

theorem endsFirst_iff_slots {t : Timeline} :
    t.EndsFirst ↔ ∀ slot : Nat, Event.EndsFirst ((t.slots[slot]?).getD []) := by
  constructor
  · intro ordered slot
    cases here : t.slots[slot]? with
    | none => exact .nil
    | some events => exact ordered events (List.mem_of_getElem? here)
  · intro ordered events member
    obtain ⟨slot, here⟩ := List.mem_iff_getElem?.1 member
    simpa [here] using ordered slot

end Timeline

namespace Score

variable {c : Score} {floor : Int}

theorem endsFirst_iff (regular : c.Regular) {timeline : Timeline}
    (done : c.timeline floor = .ok timeline) :
    timeline.EndsFirst ↔
      (∀ p ∈ c.parts, ¬p.CutsItself) ∧ c.parts.Pairwise fun p later => ¬p.Clashes later := by
  have forward := Int.le_of_lt regular.forward
  have nonneg : ∀ p ∈ scheduledEvents c floor (c.instruments.filter (·.selected))
      (schedule c 0 (playedSections c)), 0 ≤ p.slot := by
    intro p member
    obtain ⟨entry, played, inSection⟩ := List.mem_flatMap.1 member
    obtain ⟨q, placed, rfl⟩ := List.mem_map.1 inSection
    have music := regular_of_mem_schedule regular played
    have := start_nonneg forward (Int.le_refl 0) played
    have := slot_sectionEvents forward (fun i _ => music.lasting i.name) q placed
    simp only [Placed.shift]
    omega
  simp only [Timeline.endsFirst_iff_slots, getElem?_slots regular done]
  rw [← Placed.endsFirst_iff_eventsAt nonneg, scheduledEvents_eq regular, Placed.endsFirst_flatMap]
  simp only [Part.clash_placed]
  refine and_congr_left fun _ => forall₂_congr fun p member => endsFirst_placed regular member

def OwnChannels (c : Score) : Prop :=
  (c.instruments.filter (·.selected)).Pairwise fun i other => i.channel ≠ other.channel
deriving Decidable

def IsFilled (c : Score) : Prop :=
  ∀ s ∈ playedSections c, ∀ i ∈ c.instruments.filter (·.selected), Performance.IsFilled c s i
deriving Decidable

theorem spans_part (regular : c.Regular) (filled : c.IsFilled) {p : Part} (member : p ∈ c.parts) :
    Spans p.chain (p.opens - p.start) (p.closes - p.start) ∧
      ∀ slot note, ReleasesAt slot note p.chain → slot = p.closes - p.start := by
  obtain ⟨s, played, i, declared, selected, -, inRow⟩ := mem_parts.1 member
  have music := regular_of_mem_schedule regular played
  obtain ⟨apart, -⟩ := instrumentOnsets_apart (Int.le_of_lt regular.forward) (music.lasting i.name)
    (filled s (mem_of_mem_schedule played) i (List.mem_filter.2 ⟨declared, selected⟩))
  obtain ⟨first, last, front, back, spans, released⟩ := spans_of_mem_chains apart
    (fun o inRow => lasting_instrumentOnsets (music.lasting i.name) inRow) inRow
  have low : p.opens - p.start = first.slot := by
    simp only [Part.opens, front, Option.map_some, Option.getD_some]
    omega
  have high : p.closes - p.start = last.finish := by
    simp only [Part.closes, back, Option.map_some, Option.getD_some]
    omega
  rw [low, high]
  exact ⟨spans, released⟩

theorem not_cutsItself (regular : c.Regular) (filled : c.IsFilled) {p : Part} (member : p ∈ c.parts) :
    ¬p.CutsItself := by
  obtain ⟨spans, released⟩ := spans_part regular filled member
  rintro ⟨slot, note, starts, ends⟩
  have := (spans.starts starts).2
  have := released slot note ends
  omega

theorem parts_follow (regular : c.Regular) (own : c.OwnChannels) (filled : c.IsFilled) :
    c.parts.Pairwise fun p later => p.channel = later.channel → p.closes ≤ later.opens := by
  have forward := Int.le_of_lt regular.forward
  have row {entry : Int × MusicalSection} (played : entry ∈ schedule c 0 (playedSections c))
      {i : Instrument} (chosen : i ∈ c.instruments.filter (·.selected)) :=
    instrumentOnsets_apart forward ((regular_of_mem_schedule regular played).lasting i.name)
      (filled entry.2 (mem_of_mem_schedule played) i chosen)
  rw [parts, List.pairwise_flatMap]
  refine ⟨fun entry played => List.pairwise_flatMap.2 ⟨fun i chosen => List.pairwise_map.2 ?_, ?_⟩, ?_⟩
  -- chains of one instrument in one section follow each other
  · refine (chains_apart (row played chosen).1).2.imp_of_mem fun {chain next} member after apart _ => ?_
    obtain ⟨-, -, last, inChain, -, closes⟩ := Part.ends_of_mem_chains ⟨entry.1, i.channel, chain⟩ member
    obtain ⟨first, inNext, -, -, opens, -⟩ := Part.ends_of_mem_chains ⟨entry.1, i.channel, next⟩ after
    have := apart last inChain first inNext
    dsimp only at *
    omega
  -- two instruments have two channels
  · refine own.imp fun {i other} differ p member later after same => ?_
    obtain ⟨_, -, rfl⟩ := List.mem_map.1 member
    obtain ⟨_, -, rfl⟩ := List.mem_map.1 after
    exact absurd same differ
  -- sections follow each other
  · refine (schedule_apart forward 0 (playedSections c)).imp_of_mem
      fun {entry next} played follows apart p member later after _ => ?_
    obtain ⟨i, chosen, member⟩ := List.mem_flatMap.1 member
    obtain ⟨chain, inRow, rfl⟩ := List.mem_map.1 member
    obtain ⟨other, chosen', after⟩ := List.mem_flatMap.1 after
    obtain ⟨chain', inRow', rfl⟩ := List.mem_map.1 after
    obtain ⟨-, -, last, inChain, -, closes⟩ := Part.ends_of_mem_chains ⟨entry.1, i.channel, chain⟩ inRow
    obtain ⟨first, inNext, -, -, opens, -⟩ :=
      Part.ends_of_mem_chains ⟨next.1, other.channel, chain'⟩ inRow'
    have := (row played chosen).2 last (mem_of_mem_chains inRow inChain)
    have := slot_instrumentOnsets forward
      ((regular_of_mem_schedule regular follows).lasting other.name) (mem_of_mem_chains inRow' inNext)
    dsimp only at *
    omega

theorem parts_apart (regular : c.Regular) (own : c.OwnChannels) (filled : c.IsFilled) :
    c.parts.Pairwise fun p later => ¬p.Clashes later := by
  refine (parts_follow regular own filled).imp_of_mem fun {p later} member after apart => ?_
  rintro ⟨same, slot, note, starts, ends⟩
  have := ((spans_part regular filled member).1.starts starts).2
  have := ((spans_part regular filled after).1.ends ends).1
  have := apart same
  omega

end Score

namespace Compilation

/-- In a compiled timeline the ends of notes stand before their starts just if no part of the music cuts
itself short or clashes with a later one, and so wherever instruments have channels of their own and no
measure is overfull. In a slot where they do, its order and that of a file leave the same notes
sounding. -/
theorem ends_stand_first_iff {settings : Settings} {earlier : Option Selection} {text : Text}
    {c : Compilation} (compiled : ofText settings earlier text = .ok c) :
    (c.timeline.EndsFirst ↔ (∀ p ∈ c.score.parts, ¬p.CutsItself) ∧
      c.score.parts.Pairwise fun p later => ¬p.Clashes later) ∧
    (c.score.OwnChannels → c.score.IsFilled → c.timeline.EndsFirst) ∧
    ∀ events ∈ c.timeline.slots, Event.EndsFirst events →
      ∀ (tick : Int) (p : Sequencer.Player Unit) (key : Int × Int),
        key ∈ (events.foldl Sequencer.Player.account p).sounding ↔
          key ∈ (((Midi.sorted (events.map fun e => ⟨tick, e⟩)).map Midi.Timed.event).foldl
            Sequencer.Player.account p).sounding := by
  obtain ⟨regular, floor, done⟩ := Compilation.regular compiled
  have exactly := Score.endsFirst_iff regular done
  refine ⟨exactly, fun own filled => exactly.2 ⟨fun p member => ?_, ?_⟩, fun events _ ordered => ?_⟩
  · exact Score.not_cutsItself regular filled member
  · exact Score.parts_apart regular own filled
  · exact Sequencer.mem_sounding_sorted ordered

def duet : Text :=
  "[composition]\nplaylist: a, a\n[instruments]\ns: octave=3\nt: octave=3, channel=2\n[a]\ns: . 1\nt: 1 -"

theorem ends_stand_first_of_duet : ∃ c, packaged duet = .ok c ∧ c.timeline.EndsFirst := by
  have plays : ((packaged duet).toOption.any fun c =>
      decide (c.score.OwnChannels ∧ c.score.IsFilled)) = true := by
    decide +kernel
  obtain ⟨c, compiled, plays⟩ := Fault.exists_ok_of_any plays
  obtain ⟨own, filled⟩ := of_decide_eq_true plays
  obtain ⟨settings, -, read⟩ := Fault.bind_eq_ok.1 compiled
  exact ⟨c, compiled, (ends_stand_first_iff read).2.1 own filled⟩

def sharedChannel : Text :=
  "[composition]\nplaylist: a\n[instruments]\ns: octave=3\nt: octave=3\n[a]\ns: . 1\nt: 1 ."

theorem start_stands_first_in_sharedChannel :
    ∃ c, packaged sharedChannel = .ok c ∧ ¬c.timeline.EndsFirst := by
  have late : ((packaged sharedChannel).toOption.any fun c => decide ¬c.timeline.EndsFirst) = true := by
    decide +kernel
  obtain ⟨c, compiled, late⟩ := Fault.exists_ok_of_any late
  exact ⟨c, compiled, of_decide_eq_true late⟩

end Compilation

end ScoreScript
