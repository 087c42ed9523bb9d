import ScoreScript.Proofs.Tables
import ScoreScript.Proofs.Writable

set_option autoImplicit false

namespace ScoreScript.Midi

def clockFrom {α : Type} (now : Int) : List (Int × α) → List (Int × α)
  | [] => []
  | (delta, message) :: rest => (now + delta, message) :: clockFrom (now + delta) rest

section

variable {α β : Type} (now delta : Int)

theorem clockFrom_map (f : α → β) (messages : List (Int × α)) :
    clockFrom now (messages.map fun m => (m.1, f m.2)) =
      (clockFrom now messages).map fun m => (m.1, f m.2) := by
  induction messages generalizing now with
  | nil => rfl
  | cons m rest ih => simp [clockFrom, ih]

theorem clockFrom_at_once (f : α → β) (items : List α) (rest : List (Int × β)) :
    clockFrom now (items.map (fun item => (0, f item)) ++ rest) =
      items.map (fun item => (now, f item)) ++ clockFrom now rest := by
  induction items with
  | nil => rfl
  | cons item items ih => simp [clockFrom, ih]

theorem clockFrom_timed {items : List α} (present : items ≠ []) (rest : List (Int × α)) :
    clockFrom now (timed delta items ++ rest) =
      items.map (fun item => (now + delta, item)) ++ clockFrom (now + delta) rest := by
  cases items with
  | nil => exact absurd rfl present
  | cons item items =>
    rw [timed, List.cons_append, clockFrom]
    exact congrArg (_ :: ·) (clockFrom_at_once (now + delta) (fun item => item) items rest)

end

theorem messagesOf_ne_nil {e : Event} (sounds : e.kind ≠ .sample) : messagesOf e ≠ [] := by
  unfold messagesOf
  cases kind : e.kind <;> simp_all

theorem clockFrom_messagesFrom {events : List Timed} (sounds : ∀ e ∈ events, e.event.kind ≠ .sample)
    (last : Int) : clockFrom last (messagesFrom last events) =
      events.flatMap fun e => (messagesOf e.event).map fun m => (e.tick, m) := by
  induction events generalizing last with
  | nil => rfl
  | cons e rest ih =>
    obtain ⟨here, later⟩ := List.forall_mem_cons.1 sounds
    have tick : last + (e.tick - last) = e.tick := by omega
    rw [messagesFrom, clockFrom_timed _ _ (messagesOf_ne_nil here), tick, ih later, List.flatMap_cons]

theorem clockFrom_markersFrom (last : Int) (triggers : List (Int × Text)) :
    clockFrom last (markersFrom last triggers) =
      triggers.map fun trigger => (trigger.1, .marker trigger.2) := by
  induction triggers generalizing last with
  | nil => rfl
  | cons trigger rest ih =>
    have tick : last + (trigger.1 - last) = trigger.1 := by omega
    rw [markersFrom, clockFrom, tick, ih, List.map_cons]

def standingAt (tick : Int) (place : Nat) (events : List Timed) : List Timed :=
  events.filter fun e => e.tick = tick ∧ order e.event = place

theorem order_le (e : Event) : order e ≤ 2 := by
  unfold order
  split <;> decide

theorem standingAt_sorted (tick : Int) (place : Nat) (events : List Timed) :
    standingAt tick place (sorted events) = standingAt tick place events := by
  have alike : (standingAt tick place events).Pairwise fun a b => a.notAfter b = true := by
    refine List.pairwise_of_forall_mem_list fun a first b second => ?_
    have a := of_decide_eq_true (List.mem_filter.1 first).2
    have b := of_decide_eq_true (List.mem_filter.1 second).2
    rw [Timed.notAfter_iff]
    omega
  have inSorted : (standingAt tick place events).Sublist (sorted events) :=
    List.sublist_mergeSort Timed.notAfter_trans Timed.notAfter_total alike List.filter_sublist
  have kept := inSorted.filter fun e => decide (e.tick = tick ∧ order e.event = place)
  rw [standingAt, List.filter_filter] at kept
  simp only [Bool.and_self] at kept
  refine (kept.eq_of_length ?_).symm
  exact ((List.mergeSort_perm events Timed.notAfter).filter _).length_eq.symm

theorem eq_standingAt {tick : Int} {row : List Timed} (same : ∀ e ∈ row, e.tick = tick)
    (ordered : row.Pairwise fun a b => order a.event ≤ order b.event) :
    row = standingAt tick 0 row ++ standingAt tick 1 row ++ standingAt tick 2 row := by
  induction row with
  | nil => rfl
  | cons e rest ih =>
    obtain ⟨least, ordered⟩ := List.pairwise_cons.1 ordered
    obtain ⟨here, later⟩ := List.forall_mem_cons.1 same
    have whole := ih later ordered
    -- no place before that of the first event is taken by another one
    have free (place : Nat) (below : place < order e.event) : standingAt tick place rest = [] := by
      refine List.filter_eq_nil_iff.2 fun f member taken => ?_
      have := least f member
      have := (of_decide_eq_true taken).2
      omega
    have keeps (place : Nat) : standingAt tick place (e :: rest) =
        (if order e.event = place then [e] else []) ++ standingAt tick place rest := by
      by_cases own : order e.event = place <;> simp [standingAt, here, own]
    simp only [keeps]
    have most := order_le e.event
    rcases (by omega : order e.event = 0 ∨ order e.event = 1 ∨ order e.event = 2) with
      first | second | third
    · simpa [first] using whole
    · rw [free 0 (by omega)] at whole ⊢
      simpa [second] using whole
    · rw [free 0 (by omega), free 1 (by omega)] at whole ⊢
      simpa [third] using whole

/-- Whether a row has the events of a list by their ticks; at equal ticks ends of notes stand first, then
controllers and programs, then starts of notes, each as they stand in the list. -/
structure IsTrackOrder (events row : List Timed) : Prop where
  perm : row.Perm events
  forward : row.Pairwise fun a b => a.tick ≤ b.tick
  at_once : ∀ tick, row.filter (·.tick = tick) =
    events.filter (fun e => e.tick = tick ∧ e.event.kind = .noteOff) ++
      events.filter (fun e => e.tick = tick ∧
        (e.event.kind = .controlChange ∨ e.event.kind = .programChange)) ++
      events.filter (fun e => e.tick = tick ∧ e.event.kind = .noteOn)

theorem isTrackOrder_sorted {events : List Timed} (sounds : ∀ e ∈ events, e.event.kind ≠ .sample) :
    IsTrackOrder events (sorted events) where
  perm := List.mergeSort_perm events Timed.notAfter
  forward := pairwise_tick_sorted events
  at_once tick := by
    have places (place : Nat) : standingAt tick place ((sorted events).filter (·.tick = tick)) =
        standingAt tick place events := by
      rw [← standingAt_sorted tick place events, standingAt, standingAt, List.filter_filter]
      exact List.filter_congr fun e _ => by by_cases here : e.tick = tick <;> simp [here]
    have ordered : ((sorted events).filter (·.tick = tick)).Pairwise fun a b =>
        order a.event ≤ order b.event := by
      refine List.Pairwise.imp_of_mem (fun {a b} first second placed => ?_)
        ((pairwise_sorted events).filter _)
      have := of_decide_eq_true (List.mem_filter.1 first).2
      have := of_decide_eq_true (List.mem_filter.1 second).2
      rw [Timed.notAfter_iff] at placed
      omega
    rw [eq_standingAt (fun e member => of_decide_eq_true (List.mem_filter.1 member).2) ordered, places,
      places, places]
    -- each place is that of some kinds, and no sample stands among the starts
    congr 1
    · congr 1 <;>
      · refine List.filter_congr fun e _ => ?_
        cases kind : e.event.kind <;> simp [order, kind]
    · refine List.filter_congr fun e member => ?_
      have := sounds e member
      cases kind : e.event.kind <;> simp_all [order]

theorem nodup_channels (events : List Timed) : (channels events).Nodup :=
  (List.mergeSort_perm _ _).nodup_iff.2 (nodup_eraseDups _)

theorem mem_channels {events : List Timed} {e : Timed} (member : e ∈ events) :
    e.event.channel ∈ channels events :=
  List.mem_mergeSort.2 (List.mem_eraseDups.2 (List.mem_map_of_mem member))

theorem perm_flatMap_eventsOf {numbers : List Int} (apart : numbers.Nodup) {events : List Timed}
    (known : ∀ e ∈ events, e.event.channel ∈ numbers) :
    (numbers.flatMap fun channel => eventsOf channel events).Perm events := by
  induction numbers generalizing events with
  | nil =>
    obtain rfl : events = [] := List.eq_nil_iff_forall_not_mem.2 fun e member => by
      simpa using known e member
    rfl
  | cons channel rest ih =>
    obtain ⟨new, apart⟩ := List.nodup_cons.1 apart
    -- the other channels find their events among those that are left
    have others : (rest.flatMap fun other => eventsOf other events) =
        rest.flatMap fun other => eventsOf other (events.filter fun e => !decide (e.event.channel = channel)) := by
      refine List.flatMap_congr fun other member => ?_
      have differ : other ≠ channel := fun same => new (same ▸ member)
      rw [eventsOf, eventsOf, List.filter_filter]
      exact List.filter_congr fun e _ => by by_cases own : e.event.channel = other <;> simp [own, differ]
    rw [List.flatMap_cons, others]
    refine ((ih apart fun e member => ?_).append_left _).trans (List.filter_append_perm _ events)
    obtain ⟨member, differs⟩ := List.mem_filter.1 member
    have := List.mem_cons.1 (known e member)
    simp_all

structure IsCollected (t : Timeline) (resolution : Int) (events : List Timed) : Prop where
  ticks : List.Forall₂ (fun timed e => tickOf t resolution timed.1 timed.2 = .ok e.tick ∧
    e.event = timed.2) t.events events
  apart : ((byChannel events).map Prod.fst).Nodup
  own : ∀ track ∈ byChannel events,
    track.2 = events.filter fun e => e.event.kind ≠ .sample ∧ e.event.channel = track.1
  samples : sampleTriggers events =
    (events.filter (·.event.kind = .sample)).map fun e => (e.tick, e.event.sample)
  whole : (events.filter (·.event.kind = .sample) ++ (byChannel events).flatMap Prod.snd).Perm events

theorem isCollected_timedEvents {t : Timeline} {resolution : Int} {events : List Timed}
    (done : timedEvents t resolution = .ok events) : IsCollected t resolution events where
  ticks := (Fault.forall₂_of_mapM_eq_ok done).imp fun timed e placed => by
    obtain ⟨tick, found, same⟩ := Fault.bind_eq_ok.1 placed
    cases same
    exact ⟨found, rfl⟩
  apart := by
    rw [byChannel, List.map_map]
    simpa [Function.comp_def] using nodup_channels (channelEvents events)
  own track listed := by
    obtain ⟨channel, -, rfl⟩ := List.mem_map.1 listed
    rw [eventsOf, channelEvents, List.filter_filter]
    exact List.filter_congr fun e _ => by simp [and_comm]
  samples := rfl
  whole := by
    have shared := perm_flatMap_eventsOf (nodup_channels (channelEvents events)) fun e => mem_channels
    rw [byChannel, List.flatMap_map]
    refine (shared.append_left _).trans ?_
    simpa [channelEvents] using List.filter_append_perm (fun e : Timed => e.event.kind = .sample) events

def SelectsBank (e : Event) : Prop := e.kind = .programChange ∧ 0 ≤ e.bank

inductive Carries (e : Event) : Message → Prop where
  | noteOff (kind : e.kind = .noteOff) :
    Carries e (.noteOff (channelOf e.channel) (clampData e.note) (clampData e.velocity))
  | noteOn (kind : e.kind = .noteOn) :
    Carries e (.noteOn (channelOf e.channel) (clampData e.note) (clampData e.velocity))
  | controlChange (kind : e.kind = .controlChange) :
    Carries e (.controlChange (channelOf e.channel) (clampData e.control) (clampData e.value))
  | programChange (kind : e.kind = .programChange) :
    Carries e (.programChange (channelOf e.channel) (clampData e.program))

structure Performs (events : List Timed) (messages : List (Int × Message)) : Prop where
  forward : ∀ m ∈ messages, 0 ≤ m.1
  ticks : ∃ row, IsTrackOrder events row ∧
    clockFrom 0 messages = row.flatMap fun e => (messagesOf e.event).map fun m => (e.tick, m)
  single : ∀ e ∈ events, ¬SelectsBank e.event → ∃ m, Carries e.event m ∧ messagesOf e.event = [m]
  pair : ∀ e ∈ events, SelectsBank e.event → messagesOf e.event =
    [.controlChange (channelOf e.event.channel) bankSelect (clampData e.event.bank),
      .programChange (channelOf e.event.channel) (clampData e.event.program)]

structure Marks (pace : List MetaMessage) (triggers : List (Int × Text)) (track : Track) : Prop where
  forward : ∀ m ∈ track, 0 ≤ m.1
  ticks : ∃ row : List (Int × Text), row.Perm triggers ∧
    (row.Pairwise fun a b => a.1 < b.1 ∨ a.1 = b.1 ∧ Text.le a.2 b.2 = true) ∧
    clockFrom 0 track = (.trackName "Conductor" :: pace).map (fun m => (0, .info m)) ++
      row.map fun trigger => (trigger.1, .info (.marker trigger.2))

theorem performs_channelMessages {events : List Timed}
    (sounds : ∀ e ∈ events, 0 ≤ e.tick ∧ e.event.kind ≠ .sample) :
    Performs events (channelMessages events) where
  forward := nonneg_channelMessages fun e member => (sounds e member).1
  ticks := by
    refine ⟨sorted events, isTrackOrder_sorted fun e member => (sounds e member).2, ?_⟩
    exact clockFrom_messagesFrom (fun e member => (sounds e (List.mem_mergeSort.1 member)).2) 0
  single e member plain := by
    have := (sounds e member).2
    unfold messagesOf
    cases kind : e.event.kind with
    | noteOn => exact ⟨_, .noteOn kind, rfl⟩
    | noteOff => exact ⟨_, .noteOff kind, rfl⟩
    | controlChange => exact ⟨_, .controlChange kind, rfl⟩
    | programChange =>
      have unbanked : ¬0 ≤ e.event.bank := fun bank => plain ⟨kind, bank⟩
      dsimp only
      rw [if_neg unbanked]
      exact ⟨_, .programChange kind, rfl⟩
    | sample => exact absurd kind this
  pair e _ banked := by
    simp [messagesOf, banked.1, banked.2]

theorem marks_conductorTrack (pace : List MetaMessage) {triggers : List (Int × Text)}
    (ticks : ∀ trigger ∈ triggers, 0 ≤ trigger.1) : Marks pace triggers (conductorTrack pace triggers) where
  forward m member := by
    rcases List.mem_append.1 member with start | marker
    · obtain ⟨_, -, rfl⟩ := List.mem_map.1 start
      exact le_refl 0
    · obtain ⟨own, listed, rfl⟩ := List.mem_map.1 marker
      exact nonneg_markers ticks own listed
  ticks := by
    refine ⟨triggers.mergeSort triggerNotAfter, List.mergeSort_perm _ _,
      (pairwise_triggers triggers).imp triggerNotAfter_iff.1, ?_⟩
    rw [conductorTrack, clockFrom_at_once, clockFrom_map, markers, clockFrom_markersFrom, List.map_map]
    rfl

/-- The times in a track, added up, give back the ticks of the events of its channel, in the order of a
track; those of the conductor give back the ticks of the samples. A timeline can be shared out to tracks if
all of its events have ticks, and then each event goes to the track of its channel or to the samples. -/
theorem tracks_keep_times :
    (∀ events : List Timed, (∀ e ∈ events, 0 ≤ e.tick ∧ e.event.kind ≠ .sample) →
      Performs events (channelMessages events)) ∧
    (∀ (pace : List MetaMessage) (triggers : List (Int × Text)), (∀ trigger ∈ triggers, 0 ≤ trigger.1) →
      Marks pace triggers (conductorTrack pace triggers)) ∧
    ∀ (t : Timeline) (resolution : Int),
      ((∃ events, timedEvents t resolution = .ok events) ↔ t.HasTicks resolution) ∧
        ∀ events, timedEvents t resolution = .ok events → IsCollected t resolution events :=
  ⟨fun _ sounds => performs_channelMessages sounds,
    fun pace _ ticks => marks_conductorTrack pace ticks,
    fun _ _ => ⟨exists_timedEvents_iff, fun _ done => isCollected_timedEvents done⟩⟩

theorem tracks_keep_times_of_new_program :
    let start : Timed := ⟨960, { kind := .noteOn, note := 64, velocity := 80 }⟩
    let program : Timed := ⟨960, { kind := .programChange, program := 4, bank := 1 }⟩
    let stop : Timed := ⟨960, { kind := .noteOff, note := 60 }⟩
    let triggers : List (Int × Text) := [(960, "k"), (480, "s")]
    (∀ e ∈ [start, program, stop], 0 ≤ e.tick ∧ e.event.kind ≠ .sample) ∧
      (∀ trigger ∈ triggers, 0 ≤ trigger.1) ∧
      Performs [start, program, stop] [(960, .noteOff 0 60 0), (0, .controlChange 0 0 1),
        (0, .programChange 0 4), (0, .noteOn 0 64 80)] ∧
      Marks [] triggers [(0, .info (.trackName "Conductor")), (480, .info (.marker "s")),
        (480, .info (.marker "k"))] := by
  intro start program stop triggers
  have sounds : ∀ e ∈ [start, program, stop], 0 ≤ e.tick ∧ e.event.kind ≠ .sample := by decide
  have ticks : ∀ trigger ∈ triggers, 0 ≤ trigger.1 := by decide
  have row : sorted [start, program, stop] = [stop, program, start] := by
    simp [sorted, List.mergeSort, List.MergeSort.Internal.splitInTwo, Timed.notAfter, order, start, program,
      stop]
  have marks : triggers.mergeSort triggerNotAfter = ([(480, "s"), (960, "k")] : List (Int × Text)) := by
    simp [List.mergeSort, List.MergeSort.Internal.splitInTwo, triggerNotAfter, triggers]
  have messages : channelMessages [start, program, stop] = [(960, .noteOff 0 60 0),
      (0, .controlChange 0 0 1), (0, .programChange 0 4), (0, .noteOn 0 64 80)] := by
    rw [channelMessages, row]
    decide
  have track : conductorTrack [] triggers = [(0, .info (.trackName "Conductor")),
      (480, .info (.marker "s")), (480, .info (.marker "k"))] := by
    rw [conductorTrack, markers, marks]
    decide
  exact ⟨sounds, ticks, messages ▸ tracks_keep_times.1 [start, program, stop] sounds,
    track ▸ tracks_keep_times.2.1 [] triggers ticks⟩

end ScoreScript.Midi
