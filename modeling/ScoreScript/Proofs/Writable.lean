import ScoreScript.Proofs.Ticks

set_option autoImplicit false

namespace ScoreScript

namespace Fault

variable {α β : Type}

theorem exists_bind_eq_ok {first : Except Fault α} {next : α → Except Fault β} :
    (∃ result, first >>= next = .ok result) ↔
      ∃ value, first = .ok value ∧ ∃ result, next value = .ok result := by
  simp only [bind_eq_ok]
  constructor
  · rintro ⟨result, value, here, later⟩
    exact ⟨value, here, result, later⟩
  · rintro ⟨value, here, result, later⟩
    exact ⟨result, value, here, later⟩

theorem exists_map_eq_ok {outcome : Except Fault α} {f : α → β} :
    (∃ result, (do return f (← outcome)) = Except.ok result) ↔ ∃ value, outcome = .ok value := by
  rw [exists_bind_eq_ok]
  exact exists_congr fun value => and_iff_left ⟨f value, rfl⟩

theorem mem_of_mapM_eq_ok {f : α → Except Fault β} {items : List α} {results : List β}
    (done : items.mapM f = .ok results) {result : β} :
    result ∈ results ↔ ∃ item ∈ items, f item = .ok result := by
  induction items generalizing results with
  | nil =>
    cases done
    simp
  | cons item rest ih =>
    rw [List.mapM_cons] at done
    obtain ⟨value, here, done⟩ := bind_eq_ok.1 done
    obtain ⟨values, later, same⟩ := bind_eq_ok.1 done
    cases same
    rw [List.mem_cons, List.exists_mem_cons_iff, ih later, here, Except.ok.injEq]
    exact or_congr_left eq_comm

theorem forall₂_of_mapM_eq_ok {f : α → Except Fault β} {items : List α} {results : List β}
    (done : items.mapM f = .ok results) :
    List.Forall₂ (fun item result => f item = .ok result) items results := by
  induction items generalizing results with
  | nil =>
    cases done
    exact .nil
  | cons item rest ih =>
    rw [List.mapM_cons] at done
    obtain ⟨value, here, done⟩ := bind_eq_ok.1 done
    obtain ⟨values, later, same⟩ := bind_eq_ok.1 done
    cases same
    exact .cons here (ih later)

theorem exists_mapM_eq_ok {f : α → Except Fault β} {items : List α} :
    (∃ results, items.mapM f = .ok results) ↔ ∀ item ∈ items, ∃ result, f item = .ok result := by
  induction items with
  | nil => exact ⟨fun _ => by simp, fun _ => ⟨[], rfl⟩⟩
  | cons item rest ih =>
    rw [List.mapM_cons, exists_bind_eq_ok, List.forall_mem_cons, ← ih]
    simp only [exists_map_eq_ok, exists_and_right]

end Fault

open Fault

/-! ### Numbers that are not negative -/

theorem roundHalfEven_nonneg {q : Rat} (nonneg : 0 ≤ q) : 0 ≤ roundHalfEven q := by
  have floor : 0 ≤ q.floor := Rat.le_floor_iff.2 (by simpa using nonneg)
  unfold roundHalfEven
  dsimp only
  split_ifs <;> omega

namespace Text

theorem le_total (s t : Text) : le s t = true ∨ le t s = true := by
  induction s generalizing t with
  | nil => exact .inl rfl
  | cons a s ih =>
    cases t with
    | nil => exact .inr rfl
    | cons b t =>
      simp only [le, Bool.or_eq_true, Bool.and_eq_true, decide_eq_true_eq]
      rcases Nat.lt_trichotomy a.toNat b.toNat with less | same | greater
      · exact .inl (.inl less)
      · obtain rfl := CodePoint.toNat_injective same
        exact (ih t).imp (fun before => .inr ⟨rfl, before⟩) (fun before => .inr ⟨rfl, before⟩)
      · exact .inr (.inl greater)

theorem le_trans {s t u : Text} (first : le s t = true) (second : le t u = true) : le s u = true := by
  induction s generalizing t u with
  | nil => rfl
  | cons a s ih =>
    cases t with
    | nil => cases first
    | cons b t =>
      cases u with
      | nil => cases second
      | cons c u =>
        simp only [le, Bool.or_eq_true, Bool.and_eq_true, decide_eq_true_eq] at *
        rcases first with less | ⟨rfl, before⟩
        · rcases second with less' | ⟨rfl, -⟩
          · exact .inl (Nat.lt_trans less less')
          · exact .inl less
        · exact second.imp_right fun ⟨same, after⟩ => ⟨same, ih before after⟩

end Text

def Text.IsLatin (t : Text) : Prop := ∀ c ∈ t, c.toNat < 256

instance (t : Text) : Decidable t.IsLatin := inferInstanceAs (Decidable (∀ c ∈ t, _))

namespace Binary64

def IsNonneg (x : Binary64) : Prop := ∀ q, x.toRat? = some q → 0 ≤ q

theorem isNonneg_ofRat {q : Rat} (nonneg : 0 ≤ q) : (ofRat q).IsNonneg := by
  have unit (e : Int) : 0 ≤ twoPow e := by
    rw [twoPow_eq_zpow]
    exact zpow_nonneg (by norm_num) e
  intro r same
  unfold ofRat at same
  simp only [not_lt.2 nonneg, if_false] at same
  split_ifs at same
  · cases same
    rfl
  · cases same
  · cases same
    rfl
  · cases same
    exact mul_nonneg (by exact_mod_cast roundHalfEven_nonneg (div_nonneg nonneg (unit _))) (unit _)

theorem isNonneg_ofInt {n : Int} (nonneg : 0 ≤ n) : (ofInt n).IsNonneg :=
  isNonneg_ofRat (by exact_mod_cast nonneg)

theorem isNonneg_rounded (negative : Bool) {q : Rat} (nonneg : 0 ≤ q) : (rounded negative q).IsNonneg := by
  unfold rounded
  split
  · cases negative <;> simp [zero, IsNonneg, toRat?]
  · exact isNonneg_ofRat nonneg

theorem IsNonneg.getD {x : Binary64} (nonneg : x.IsNonneg) : 0 ≤ x.toRat?.getD 0 := by
  cases value : x.toRat? with
  | none => exact le_refl 0
  | some q => exact nonneg q value

theorem isNonneg_of_toRat?_eq_none {x : Binary64} (beyond : x.toRat? = none) : x.IsNonneg := by
  intro q same
  rw [beyond] at same
  cases same

theorem IsNonneg.mul {x y : Binary64} (first : x.IsNonneg) (second : y.IsNonneg) : (x * y).IsNonneg := by
  change (Binary64.mul x y).IsNonneg
  unfold Binary64.mul
  dsimp only
  split
  · exact isNonneg_of_toRat?_eq_none rfl
  · exact isNonneg_of_toRat?_eq_none rfl
  · split <;> exact isNonneg_of_toRat?_eq_none rfl
  · split <;> exact isNonneg_of_toRat?_eq_none rfl
  · exact isNonneg_rounded _ (mul_nonneg first.getD second.getD)

theorem IsNonneg.div {x y : Binary64} (first : x.IsNonneg) (second : y.IsNonneg) : (x / y).IsNonneg := by
  change (Binary64.div x y).IsNonneg
  unfold Binary64.div
  dsimp only
  split
  · exact isNonneg_of_toRat?_eq_none rfl
  · exact isNonneg_of_toRat?_eq_none rfl
  · exact isNonneg_of_toRat?_eq_none rfl
  · exact isNonneg_of_toRat?_eq_none rfl
  · exact isNonneg_rounded _ (le_refl 0)
  · split
    · split <;> exact isNonneg_of_toRat?_eq_none rfl
    · exact isNonneg_rounded _ (div_nonneg first.getD second.getD)

theorem IsNonneg.nearest {x : Binary64} (nonneg : x.IsNonneg) {n : Int} (done : x.nearest = .ok n) :
    0 ≤ n := by
  cases x with
  | number q =>
    cases done
    exact roundHalfEven_nonneg (nonneg q rfl)
  | negativeZero =>
    cases done
    rfl
  | infinity | undefined => cases done

theorem isNonneg_ofWhole {n : Int} {x : Binary64} (nonneg : 0 ≤ n) (done : ofWhole n = .ok x) :
    x.IsNonneg := by
  unfold ofWhole at done
  split at done
  · cases done
  · cases done
    exact isNonneg_ofInt nonneg

theorem isNonneg_ofQuotient {m n : Int} {x : Binary64} (above : 0 ≤ m) (below : 0 ≤ n)
    (done : ofQuotient m n = .ok x) : x.IsNonneg := by
  unfold ofQuotient at done
  dsimp only at done
  split at done
  · cases done
  · cases done
    exact isNonneg_ofRat (div_nonneg (by exact_mod_cast above) (by exact_mod_cast below))

end Binary64

namespace Timeline

def HasLatinNames (t : Timeline) : Prop :=
  ∀ timed ∈ t.events, timed.2.kind = .sample → timed.2.sample.IsLatin

def HasTicks (t : Timeline) (resolution : Int) : Prop :=
  ∀ timed ∈ t.events, ∃ tick, Midi.tickOf t resolution timed.1 timed.2 = .ok tick

end Timeline

namespace Midi

open Binary64

variable {t : Timeline} {resolution : Int}

/-! ### Ticks -/

theorem stepsToTicks_nonneg {steps spb ticks : Int} (forward : 0 ≤ steps) (fine : 0 ≤ resolution)
    (done : stepsToTicks steps spb resolution = .ok ticks) : 0 ≤ ticks := by
  obtain ⟨ticksPerStep, quotient, done⟩ := bind_eq_ok.1 done
  obtain ⟨whole, first, done⟩ := bind_eq_ok.1 done
  have grid : 0 ≤ if spb ≤ 0 then 12 else spb := by split <;> omega
  exact ((isNonneg_ofWhole forward first).mul (isNonneg_ofQuotient fine grid quotient)).nearest done

theorem millisecondsToTicks_nonneg {delay : Binary64} {bpm ticks : Int} (late : delay.IsNonneg)
    (fine : 0 ≤ resolution) (done : millisecondsToTicks delay bpm resolution = .ok ticks) : 0 ≤ ticks := by
  unfold millisecondsToTicks at done
  split at done
  next =>
    cases done
    rfl
  next moves =>
    obtain ⟨pace, first, done⟩ := bind_eq_ok.1 done
    obtain ⟨scale, second, done⟩ := bind_eq_ok.1 done
    have seconds : (delay / 1000).IsNonneg := late.div (isNonneg_ofInt (by decide))
    have beats := (seconds.mul (isNonneg_ofWhole (by omega) first)).div
      (isNonneg_ofInt (n := 60) (by decide))
    exact (beats.mul (isNonneg_ofWhole fine second)).nearest done

theorem tickOf_nonneg {slot : Nat} {e : Event} {tick : Int} (late : e.delay.IsNonneg)
    (fine : 0 ≤ resolution) (done : tickOf t resolution slot e = .ok tick) : 0 ≤ tick := by
  obtain ⟨start, first, done⟩ := bind_eq_ok.1 done
  have start := stepsToTicks_nonneg (Int.natCast_nonneg slot) fine first
  split at done
  · cases done
    exact start
  · obtain ⟨extra, second, done⟩ := bind_eq_ok.1 done
    cases done
    exact Int.add_nonneg start (millisecondsToTicks_nonneg late fine second)

/-! ### Messages of a track -/

theorem exists_latin1_iff {t : Text} : (∃ bytes, latin1 t = .ok bytes) ↔ t.IsLatin := by
  unfold latin1 Text.IsLatin
  split
  next latin => simpa using latin
  next strange => simpa using strange

def MetaMessage.IsWritable : MetaMessage → Prop
  | .marker text | .trackName text => text.IsLatin
  | .timeSignature _ _ | .tempo _ | .endOfTrack => True

def FileMessage.IsWritable : FileMessage → Prop
  | .channel _ => True
  | .info m => m.IsWritable

def Track.IsWritable (track : Track) : Prop := ∀ m ∈ track, 0 ≤ m.1 ∧ m.2.IsWritable

theorem exists_bytes_iff {m : MetaMessage} : (∃ bytes, m.bytes = .ok bytes) ↔ m.IsWritable := by
  unfold MetaMessage.bytes
  rw [exists_map_eq_ok (f := fun content : Nat × List Nat =>
    0xFF :: content.1 :: variableLength content.2.length ++ content.2)]
  cases m with
  | marker text | trackName text =>
    unfold MetaMessage.content
    rw [exists_map_eq_ok]
    exact exists_latin1_iff
  | timeSignature | tempo | endOfTrack => exact ⟨fun _ => trivial, fun _ => ⟨_, rfl⟩⟩

theorem exists_trackBytes_iff (running : Option Nat) (track : Track) :
    (∃ bytes, trackBytes running track = .ok bytes) ↔ track.IsWritable := by
  -- the running status decides which bytes are written, but never whether they can be
  induction track generalizing running with
  | nil => exact ⟨fun _ _ member => by simp at member, fun _ => ⟨[], rfl⟩⟩
  | cons m rest ih =>
    obtain ⟨delta, message⟩ := m
    have split : Track.IsWritable ((delta, message) :: rest) ↔
        (0 ≤ delta ∧ message.IsWritable) ∧ Track.IsWritable rest := List.forall_mem_cons
    rw [split, trackBytes]
    by_cases early : delta < 0
    · simp only [if_pos early]
      refine ⟨fun ⟨bytes, done⟩ => ?_, fun writable => ?_⟩
      · cases done
      · omega
    · simp only [if_neg early]
      cases message with
      | channel m =>
        change (∃ bytes, (do return _ ++ _ ++ (← trackBytes (some m.status) rest)) = Except.ok bytes) ↔ _
        rw [exists_map_eq_ok, ih]
        simp [FileMessage.IsWritable, Int.not_lt.1 early]
      | info m =>
        change (∃ bytes, (do
          let own ← m.bytes
          return _ ++ own ++ (← trackBytes none rest)) = Except.ok bytes) ↔ _
        rw [exists_bind_eq_ok]
        simp only [exists_map_eq_ok, ih, exists_and_right, exists_bytes_iff]
        simp [FileMessage.IsWritable, Int.not_lt.1 early]

theorem exists_trackChunk_iff {track : Track} :
    (∃ bytes, trackChunk track = .ok bytes) ↔ track.IsWritable := by
  unfold trackChunk
  rw [exists_map_eq_ok, exists_trackBytes_iff]
  simp [Track.IsWritable, FileMessage.IsWritable, MetaMessage.IsWritable, or_imp, forall_and]

theorem exists_file_iff : (∃ chunks, file t defaultResolution = .ok chunks) ↔
    ∃ events, timedEvents t defaultResolution = .ok events ∧ ∃ pace, paceMessages t = .ok pace ∧
      ∀ track ∈ tracks pace events, track.IsWritable := by
  have header (count : Nat) : ∃ bytes, headerChunk count defaultResolution = .ok bytes := ⟨_, rfl⟩
  unfold file
  simp only [exists_bind_eq_ok]
  refine exists_congr fun events => and_congr_right fun _ =>
    exists_congr fun pace => and_congr_right fun _ => ?_
  obtain ⟨bytes, done⟩ := header (tracks pace events).length
  simp only [← exists_trackChunk_iff, ← exists_mapM_eq_ok]
  constructor
  · rintro ⟨_, -, chunks, written, -⟩
    exact ⟨chunks, written⟩
  · rintro ⟨chunks, written⟩
    exact ⟨bytes, done, chunks, written, _, rfl⟩

/-! ### Times between messages -/

theorem mem_timed {α : Type} {delta : Int} {items : List α} {m : Int × α}
    (member : m ∈ timed delta items) : m.1 = delta ∨ m.1 = 0 := by
  cases items with
  | nil => simp [timed] at member
  | cons item rest =>
    rcases List.mem_cons.1 member with rfl | later
    · exact .inl rfl
    · obtain ⟨_, -, rfl⟩ := List.mem_map.1 later
      exact .inr rfl

theorem nonneg_messagesFrom {last : Int} {events : List Timed}
    (ordered : events.Pairwise fun a b => a.tick ≤ b.tick) (after : ∀ e ∈ events, last ≤ e.tick) :
    ∀ m ∈ messagesFrom last events, 0 ≤ m.1 := by
  induction events generalizing last with
  | nil => simp [messagesFrom]
  | cons e rest ih =>
    obtain ⟨first, ordered⟩ := List.pairwise_cons.1 ordered
    have next := after e (by simp)
    intro m member
    -- only the first message of an event waits, the others follow at once
    rcases List.mem_append.1 member with here | later
    · rcases mem_timed here with same | same <;> omega
    · exact ih ordered first m later

theorem nonneg_markersFrom {last : Int} {triggers : List (Int × Text)}
    (ordered : triggers.Pairwise fun a b => a.1 ≤ b.1) (after : ∀ trigger ∈ triggers, last ≤ trigger.1) :
    ∀ m ∈ markersFrom last triggers, 0 ≤ m.1 := by
  induction triggers generalizing last with
  | nil => simp [markersFrom]
  | cons trigger rest ih =>
    obtain ⟨first, ordered⟩ := List.pairwise_cons.1 ordered
    have next := after trigger (by simp)
    rw [markersFrom]
    exact List.forall_mem_cons.2 ⟨by dsimp only; omega, ih ordered first⟩

theorem map_snd_markersFrom (last : Int) (triggers : List (Int × Text)) :
    (markersFrom last triggers).map Prod.snd = triggers.map fun trigger => .marker trigger.2 := by
  induction triggers generalizing last with
  | nil => rfl
  | cons trigger rest ih => rw [markersFrom, List.map_cons, List.map_cons, ih]

theorem pairwise_tick_sorted (events : List Timed) :
    (sorted events).Pairwise fun a b => a.tick ≤ b.tick :=
  (pairwise_sorted events).imp fun placed => by
    rw [Timed.notAfter_iff] at placed
    omega

theorem nonneg_channelMessages {events : List Timed} (ticks : ∀ e ∈ events, 0 ≤ e.tick) :
    ∀ m ∈ channelMessages events, 0 ≤ m.1 :=
  nonneg_messagesFrom (pairwise_tick_sorted events) fun e member =>
    ticks e (List.mem_mergeSort.1 member)

theorem triggerNotAfter_iff {a b : Int × Text} :
    triggerNotAfter a b = true ↔ a.1 < b.1 ∨ a.1 = b.1 ∧ Text.le a.2 b.2 = true := by
  simp only [triggerNotAfter, Bool.or_eq_true, Bool.and_eq_true, decide_eq_true_eq]

theorem pairwise_triggers (triggers : List (Int × Text)) :
    (triggers.mergeSort triggerNotAfter).Pairwise fun a b => triggerNotAfter a b = true := by
  apply List.pairwise_mergeSort
  · intro a b c first second
    rw [triggerNotAfter_iff] at *
    rcases first with less | ⟨same, before⟩
    · omega
    · rcases second with less | ⟨same', after⟩
      · omega
      · exact .inr ⟨same.trans same', Text.le_trans before after⟩
  · intro a b
    rw [Bool.or_eq_true, triggerNotAfter_iff, triggerNotAfter_iff]
    rcases Int.lt_trichotomy a.1 b.1 with less | same | greater
    · exact .inl (.inl less)
    · exact (Text.le_total a.2 b.2).imp (fun before => .inr ⟨same, before⟩)
        (fun before => .inr ⟨same.symm, before⟩)
    · exact .inr (.inl greater)

theorem pairwise_tick_triggers (triggers : List (Int × Text)) :
    (triggers.mergeSort triggerNotAfter).Pairwise fun a b => a.1 ≤ b.1 :=
  (pairwise_triggers triggers).imp fun sorts => by
    rw [triggerNotAfter_iff] at sorts
    omega

theorem nonneg_markers {triggers : List (Int × Text)} (ticks : ∀ trigger ∈ triggers, 0 ≤ trigger.1) :
    ∀ m ∈ markers triggers, 0 ≤ m.1 :=
  nonneg_markersFrom (pairwise_tick_triggers triggers) fun trigger member =>
    ticks trigger (List.mem_mergeSort.1 member)

theorem isLatin_ofInt (n : Int) : (Text.ofInt n).IsLatin := by
  have digits (m : Nat) : (Text.digits 10 m).IsLatin := by
    intro c member
    obtain ⟨digit, shown, rfl⟩ := List.mem_map.1 member
    have isDigit := Nat.isDigit_of_mem_toDigits (by decide) (by decide) shown
    simp only [Char.isDigit, Bool.and_eq_true, decide_eq_true_eq] at isDigit
    exact Nat.lt_of_le_of_lt (UInt32.le_iff_toNat_le.1 isDigit.2) (by decide)
  cases n with
  | ofNat m => exact digits m
  | negSucc m => exact List.forall_mem_cons.2 ⟨by decide, digits (m + 1)⟩

theorem isWritable_channelTrack {events : List Timed} (ticks : ∀ e ∈ events, 0 ≤ e.tick) (channel : Int) :
    (channelTrack channel events).IsWritable := by
  refine List.forall_mem_cons.2 ⟨⟨le_refl 0, ?_⟩, fun m member => ?_⟩
  · have start : Text.IsLatin "Channel " := by decide
    exact List.forall_mem_append.2 ⟨start, isLatin_ofInt (channel + 1)⟩
  · obtain ⟨message, inTrack, rfl⟩ := List.mem_map.1 member
    exact ⟨nonneg_channelMessages ticks message inTrack, trivial⟩

theorem isWritable_conductorTrack_iff {pace : List MetaMessage} (paced : ∀ m ∈ pace, m.IsWritable)
    {triggers : List (Int × Text)} (ticks : ∀ trigger ∈ triggers, 0 ≤ trigger.1) :
    (conductorTrack pace triggers).IsWritable ↔ ∀ trigger ∈ triggers, trigger.2.IsLatin := by
  have texts : (markers triggers).map Prod.snd =
      (triggers.mergeSort triggerNotAfter).map fun trigger => .marker trigger.2 :=
    map_snd_markersFrom 0 _
  constructor
  · intro writable trigger member
    have marker : MetaMessage.marker trigger.2 ∈ (markers triggers).map Prod.snd := by
      rw [texts]
      exact List.mem_map_of_mem (List.mem_mergeSort.2 member)
    obtain ⟨m, inMarkers, same⟩ := List.mem_map.1 marker
    have written := (writable (m.1, .info m.2) (List.mem_append_right _ (List.mem_map_of_mem inMarkers))).2
    rw [FileMessage.IsWritable, same] at written
    exact written
  · intro latin m member
    rcases List.mem_append.1 member with info | marker
    · obtain ⟨message, listed, rfl⟩ := List.mem_map.1 info
      refine ⟨le_refl 0, ?_⟩
      rcases List.mem_cons.1 listed with rfl | inPace
      · exact (by decide : Text.IsLatin "Conductor")
      · exact paced message inPace
    · obtain ⟨m, inMarkers, rfl⟩ := List.mem_map.1 marker
      have text := List.mem_map_of_mem (f := Prod.snd) inMarkers
      rw [texts] at text
      obtain ⟨trigger, inSorted, same⟩ := List.mem_map.1 text
      refine ⟨nonneg_markers ticks m inMarkers, ?_⟩
      rw [FileMessage.IsWritable, ← same]
      exact latin trigger (List.mem_mergeSort.1 inSorted)

theorem isWritable_tracks_iff {pace : List MetaMessage} (paced : ∀ m ∈ pace, m.IsWritable)
    {events : List Timed} (ticks : ∀ e ∈ events, 0 ≤ e.tick) :
    (∀ track ∈ tracks pace events, track.IsWritable) ↔
      ∀ e ∈ events, e.event.kind = .sample → e.event.sample.IsLatin := by
  have channels : ∀ own ∈ byChannel events, (channelTrack own.1 own.2).IsWritable := by
    intro own listed
    obtain ⟨channel, -, rfl⟩ := List.mem_map.1 listed
    refine isWritable_channelTrack (fun e member => ticks e ?_) channel
    exact List.mem_of_mem_filter (List.mem_of_mem_filter member)
  rw [tracks, List.forall_mem_cons, List.forall_mem_map]
  refine (and_iff_left channels).trans ?_
  rw [isWritable_conductorTrack_iff paced]
  · simp only [sampleTriggers, List.forall_mem_map, List.mem_filter, decide_eq_true_eq, and_imp]
  · simp only [sampleTriggers, List.forall_mem_map, List.mem_filter, and_imp]
    exact fun e member _ => ticks e member

/-! ### Tempo -/

theorem microsecondsPerBeat_bounds {bpm : Int} (slow : 0 ≤ bpm) (fast : bpm ≤ 255) :
    ∃ tempo, microsecondsPerBeat bpm = .ok tempo ∧ 0 ≤ tempo ∧ (tempo ≤ 16777215 ↔ 4 ≤ bpm) := by
  have table : ∀ bpm : Fin 256, ((microsecondsPerBeat bpm).toOption.any fun tempo =>
      decide (0 ≤ tempo ∧ (tempo ≤ 16777215 ↔ 4 ≤ (bpm : Int)))) = true := by
    decide +kernel
  obtain ⟨n, rfl⟩ := Int.eq_ofNat_of_zero_le slow
  obtain ⟨tempo, done, bounds⟩ := exists_ok_of_any (table ⟨n, by omega⟩)
  exact ⟨tempo, done, of_decide_eq_true bounds⟩

theorem exists_paceMessages_iff (few : 0 ≤ t.beats ∧ t.beats ≤ 255) (slow : 0 ≤ t.bpm)
    (fast : t.bpm ≤ 255) : (∃ pace, paceMessages t = .ok pace) ↔ 4 ≤ t.bpm := by
  obtain ⟨tempo, done, nonneg, bound⟩ := microsecondsPerBeat_bounds slow fast
  unfold paceMessages
  rw [if_neg (by omega), ← bound, done]
  constructor
  · rintro ⟨pace, written⟩
    obtain ⟨_, same, written⟩ := bind_eq_ok.1 written
    cases same
    split at written
    · cases written
    · omega
  · intro quick
    refine ⟨[.timeSignature t.beats (denominator t), .tempo tempo], ?_⟩
    change (if tempo < 0 ∨ 16777215 < tempo then _ else _) = _
    rw [if_neg (by omega)]
    rfl

theorem isWritable_of_mem_pace {pace : List MetaMessage} (done : paceMessages t = .ok pace) :
    ∀ m ∈ pace, m.IsWritable := by
  unfold paceMessages at done
  split at done
  · cases done
  · obtain ⟨tempo, -, done⟩ := bind_eq_ok.1 done
    split at done
    · cases done
    · cases done
      simp [MetaMessage.IsWritable]

/-! ### Files -/

theorem exists_timedEvents_iff :
    (∃ events, timedEvents t resolution = .ok events) ↔ t.HasTicks resolution := by
  unfold timedEvents
  rw [exists_mapM_eq_ok]
  exact forall₂_congr fun timed _ => exists_map_eq_ok

theorem mem_timedEvents {events : List Timed}
    (done : timedEvents t resolution = .ok events) {e : Timed} :
    e ∈ events ↔ ∃ timed ∈ t.events, tickOf t resolution timed.1 timed.2 = .ok e.tick ∧
      timed.2 = e.event := by
  rw [mem_of_mapM_eq_ok done]
  refine exists_congr fun timed => and_congr_right fun _ => ?_
  rw [bind_eq_ok]
  constructor
  · rintro ⟨tick, placed, same⟩
    cases same
    exact ⟨placed, rfl⟩
  · rintro ⟨placed, same⟩
    exact ⟨e.tick, placed, by rw [same]; rfl⟩

theorem file_written_iff (few : 0 ≤ t.beats ∧ t.beats ≤ 255) (slow : 0 ≤ t.bpm) (fast : t.bpm ≤ 255)
    (late : ∀ timed ∈ t.events, timed.2.delay.IsNonneg) :
    (∃ chunks, file t defaultResolution = .ok chunks) ↔
      4 ≤ t.bpm ∧ t.HasLatinNames ∧ t.HasTicks defaultResolution := by
  have names {pace : List MetaMessage} (paced : paceMessages t = .ok pace) {events : List Timed}
      (done : timedEvents t defaultResolution = .ok events) :
      (∀ track ∈ tracks pace events, track.IsWritable) ↔ t.HasLatinNames := by
    rw [isWritable_tracks_iff (isWritable_of_mem_pace paced) fun e member => ?_]
    · constructor
      · intro latin timed member sounds
        obtain ⟨tick, placed⟩ := exists_timedEvents_iff.1 ⟨events, done⟩ timed member
        exact latin ⟨tick, timed.2⟩ ((mem_timedEvents done).2 ⟨timed, member, placed, rfl⟩) sounds
      · intro latin e member sounds
        obtain ⟨timed, listed, -, same⟩ := (mem_timedEvents done).1 member
        rw [← same] at sounds ⊢
        exact latin timed listed sounds
    · obtain ⟨timed, listed, placed, -⟩ := (mem_timedEvents done).1 member
      exact tickOf_nonneg (late timed listed) (by decide) placed
  rw [exists_file_iff, ← exists_paceMessages_iff few slow fast, ← exists_timedEvents_iff]
  constructor
  · rintro ⟨events, done, pace, paced, writable⟩
    exact ⟨⟨pace, paced⟩, (names paced done).1 writable, events, done⟩
  · rintro ⟨⟨pace, paced⟩, latin, events, done⟩
    exact ⟨events, done, pace, paced, (names paced done).2 latin⟩

end Midi

end ScoreScript
