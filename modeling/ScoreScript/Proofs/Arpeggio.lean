import Mathlib.Algebra.Order.Floor.Ring
import ScoreScript.Proofs.SectionSize

set_option autoImplicit false

namespace ScoreScript

open Fault Placed

namespace Performance

def turn (notes : List Int) (k : Nat) : Int := (notes[k % notes.length]?).getD 0

theorem turn_eq {notes : List Int} (played : notes ≠ []) (k : Nat) :
    notes[k % notes.length]? = some (turn notes k) := by
  have inside : k % notes.length < notes.length := Nat.mod_lt k (List.length_pos_iff.2 played)
  rw [turn, List.getElem?_eq_getElem inside, Option.getD_some]

def turnCount (length spacing duration : Int) : Nat :=
  ⌈((max 0 (length - duration) : Int) : ℚ) / spacing⌉₊

theorem lt_turnCount_iff {length spacing duration : Int} (forward : 0 < spacing) {k : Nat} :
    k < turnCount length spacing duration ↔ k * spacing < length - duration := by
  have positive : (0 : ℚ) < spacing := by exact_mod_cast forward
  have start : 0 ≤ (k : Int) * spacing := Int.mul_nonneg (Int.natCast_nonneg k) forward.le
  rw [turnCount, Nat.lt_ceil, lt_div_iff₀ positive]
  norm_cast
  omega

def turnPair (v : Voice) (notes : List Int) (spacing duration slot : Int) (k : Nat) : List Placed :=
  [.one (slot + k * spacing)
      { kind := .noteOn, channel := v.channel, note := turn notes k, velocity := v.velocity },
    .one (slot + k * spacing + duration)
      { kind := .noteOff, channel := v.channel, note := turn notes k, velocity := v.velocity }]

def turns (v : Voice) (notes : List Int) (spacing duration slot : Int) (count : Nat) : List Placed :=
  (List.range count).flatMap (turnPair v notes spacing duration slot)

variable {v : Voice} {notes : List Int} {spacing duration slot : Int}

theorem arpeggio_eq_flatMap (played : notes ≠ []) (forward : 0 < spacing) {stop : Int} {count : Nat}
    (k : Nat) (room : ∀ j : Nat, j < count ↔ slot + (k + j) * spacing < stop) :
    arpeggio v notes spacing duration stop k (slot + k * spacing) =
      (List.range count).flatMap fun j => turnPair v notes spacing duration slot (k + j) := by
  -- over the notes that are left to play, after `k` notes
  induction count generalizing k with
  | zero =>
    have ended : ¬slot + k * spacing < stop := by simpa using (room 0).not.1 (Nat.lt_irrefl 0)
    rw [arpeggio, dif_neg fun ongoing => ended ongoing.2]
    rfl
  | succ count ih =>
    have ongoing : slot + k * spacing < stop := by simpa using (room 0).1 (Nat.succ_pos count)
    have next : slot + k * spacing + spacing = slot + ((k + 1 : Nat) : Int) * spacing := by push_cast; ring
    rw [arpeggio, dif_pos ⟨forward, ongoing⟩, turn_eq played k]
    dsimp only
    rw [next, ih (k + 1) fun j => ?_, List.range_succ_eq_map, List.flatMap_cons, List.flatMap_map]
    · simp only [Nat.succ_eq_add_one, Nat.add_assoc, Nat.add_comm 1]
      rfl
    · have moved : (k : Int) + ((j + 1 : Nat) : Int) = ((k + 1 : Nat) : Int) + j := by push_cast; ring
      rw [← moved, ← room (j + 1)]
      omega

theorem arpeggio_eq_turns (played : notes ≠ []) (forward : 0 < spacing) (length : Int) :
    arpeggio v notes spacing duration (slot + length - duration) 0 slot =
      turns v notes spacing duration slot (turnCount length spacing duration) := by
  have room (j : Nat) : j < turnCount length spacing duration ↔
      slot + ((0 : Nat) + j) * spacing < slot + length - duration := by
    rw [lt_turnCount_iff forward]
    push_cast
    rw [zero_add]
    omega
  have unrolled : arpeggio v notes spacing duration (slot + length - duration) 0
      (slot + (0 : Nat) * spacing) = _ := arpeggio_eq_flatMap played forward 0 room
  simpa [turns] using unrolled

theorem slot_turns (forward : 0 ≤ spacing) (lasting : 0 ≤ duration) (v : Voice) (notes : List Int)
    (slot : Int) (count : Nat) : ∀ p ∈ turns v notes spacing duration slot count, slot ≤ p.slot := by
  intro p member
  obtain ⟨k, -, member⟩ := List.mem_flatMap.1 member
  have later : 0 ≤ (k : Int) * spacing := Int.mul_nonneg (Int.natCast_nonneg k) forward
  simp only [turnPair, List.mem_cons, List.not_mem_nil, or_false] at member
  rcases member with rfl | rfl <;> simp only [Placed.one] <;> omega

/-- What an arpeggio adds to slots: note `k` starts `k` spacings after the first and ends after its own
duration, as long as that is before the step ends. -/
structure Unrolls (v : Voice) (notes : List Int) (spacing duration slot length : Int)
    (slots after : Slots) : Prop where
  events : ∀ j : Nat, (after[j]?).getD [] = (slots[j]?).getD [] ++
    eventsAt (turns v notes spacing duration slot (turnCount length spacing duration)) j
  inTurn : ∀ k, notes[k % notes.length]? = some (turn notes k)
  onsets : ∀ k : Nat, k < turnCount length spacing duration ↔ k * spacing < length - duration
  ends : ∀ k < turnCount length spacing duration, slot + k * spacing + duration < slot + length

theorem perform_arpeggio (played : notes ≠ []) (forward : 0 < spacing) (lasting : 0 ≤ duration)
    (placed : 0 ≤ slot) (v : Voice) (length : Int) (slots : Slots) :
    ∃ after, (Figure.arpeggio v notes spacing duration (slot + length - duration) slot).perform slots =
      .ok after ∧ Unrolls v notes spacing duration slot length slots after := by
  set f := Figure.arpeggio v notes spacing duration (slot + length - duration) slot
  have ahead : f.isBackward = false := by
    have steady : ¬spacing < 0 := by omega
    simp [f, Figure.isBackward, steady]
  have inTime : ∀ p ∈ f.placed, isEndless p = false := by
    intro p member
    by_contra late
    exact not_isEndless_arpeggio ⟨p, member, by simpa using late⟩
  rw [Figure.perform_eq_foldlM slots ahead, foldlM_perform slots inTime, Figure.placed,
    arpeggio_eq_turns played forward]
  have later := slot_turns forward.le lasting v notes slot (turnCount length spacing duration)
  obtain ⟨after, added, -, content⟩ :=
    addAll_of_nonneg slots fun p member => placed.trans (later p member)
  refine ⟨after, added, content, turn_eq played, fun k => lt_turnCount_iff forward, fun k inside => ?_⟩
  have onset := (lt_turnCount_iff forward).1 inside
  omega

end Performance

namespace Step

structure IsFirstChain (chain row : List Step) : Prop where
  head : chain.head? = row.head?
  joined : chain.IsChain fun step next => step.joins next = true
  whole : ∃ rest, row = chain ++ rest ∧
    ∀ last ∈ chain.getLast?, ∀ next ∈ rest.head?, last.joins next = false

theorem exists_firstChain (step : Step) (following : List Step) :
    ∃ chain, IsFirstChain chain (step :: following) ∧
      MusicalSection.tiedLength (step :: following) = Measure.duration chain := by
  induction following generalizing step with
  | nil => exact ⟨[step], ⟨rfl, .singleton _, [], rfl, by simp⟩, by simp [MusicalSection.tiedLength]⟩
  | cons next later ih =>
    by_cases here : step.joins next = true
    · obtain ⟨chain, ⟨head, joined, rest, split, free⟩, long⟩ := ih next
      obtain ⟨more, rfl⟩ : ∃ more, chain = next :: more := List.head?_eq_some_iff.1 head
      refine ⟨step :: next :: more, ⟨rfl, .cons_cons here joined, rest, by rw [split]; rfl, ?_⟩, ?_⟩
      · simpa [List.getLast?_cons_cons] using free
      · rw [MusicalSection.tiedLength, if_pos (by exact here), long, Measure.duration_cons step]
    · refine ⟨[step], ⟨rfl, .singleton _, next :: later, rfl, ?_⟩, ?_⟩
      · simpa using here
      · rw [MusicalSection.tiedLength, if_neg (by exact here)]
        simp

end Step

def stepsAfter (measures : List Measure) (bar place : Nat) (measure : Measure) : List Step :=
  measure.drop (place + 1) ++ (measures.drop (bar + 1)).flatten

section

variable {measures : List Measure} {bar place : Nat} {measure : Measure} {step : Step}

theorem drop_flatten_eq_cons (inSection : measures[bar]? = some measure)
    (inMeasure : measure[place]? = some step) :
    (measures.drop bar).flatten.drop place = step :: stepsAfter measures bar place measure := by
  obtain ⟨inside, rfl⟩ := List.getElem?_eq_some_iff.1 inSection
  obtain ⟨early, rfl⟩ := List.getElem?_eq_some_iff.1 inMeasure
  rw [List.drop_eq_getElem_cons inside, List.flatten_cons, List.drop_append_of_le_length early.le,
    List.drop_eq_getElem_cons early]
  rfl

namespace Performance

variable {samples : Table Sample} {floor channel : Int}

theorem isInfix_measureFigures (inMeasure : measure[place]? = some step) (after : List Step) (slot : Int) :
    stepFigures samples floor channel (slot + Measure.duration (measure.take place)) step
      (measure.drop (place + 1) ++ after) <:+: measureFigures samples floor channel after slot measure := by
  induction measure generalizing place slot with
  | nil => cases inMeasure
  | cons first rest ih =>
    rw [measureFigures]
    cases place with
    | zero =>
      cases inMeasure
      simpa using (List.prefix_append _ _).isInfix
    | succ place =>
      have later := ih (by simpa using inMeasure) (slot + first.length)
      rw [Int.add_assoc, ← Measure.duration_cons, ← List.take_succ_cons] at later
      exact later.trans (List.suffix_append _ _).isInfix

theorem isInfix_measuresFigures (inSection : measures[bar]? = some measure) (stepsPerMeasure slot : Int) :
    measureFigures samples floor channel (measures.drop (bar + 1)).flatten (slot + bar * stepsPerMeasure)
      measure <:+: measuresFigures samples floor channel stepsPerMeasure slot measures := by
  induction measures generalizing bar slot with
  | nil => cases inSection
  | cons first rest ih =>
    rw [measuresFigures]
    cases bar with
    | zero =>
      cases inSection
      simpa using (List.prefix_append _ _).isInfix
    | succ bar =>
      have later := ih (by simpa using inSection) (slot + stepsPerMeasure)
      have moved : slot + stepsPerMeasure + bar * stepsPerMeasure =
          slot + ((bar + 1 : Nat) : Int) * stepsPerMeasure := by push_cast; ring
      rw [moved] at later
      exact later.trans (List.suffix_append _ _).isInfix

theorem isInfix_figuresAt (inSection : measures[bar]? = some measure)
    (inMeasure : measure[place]? = some step) (stepsPerMeasure : Int) :
    stepFigures samples floor channel (bar * stepsPerMeasure + Measure.duration (measure.take place)) step
      (stepsAfter measures bar place measure) <:+:
      measuresFigures samples floor channel stepsPerMeasure 0 measures := by
  rw [← Int.zero_add ((bar : Int) * stepsPerMeasure)]
  exact (isInfix_measureFigures inMeasure _ _).trans (isInfix_measuresFigures inSection stepsPerMeasure 0)

theorem arpeggio_unrolls {s : MusicalSection} {name : Text}
    (inSection : (s.measuresOf name)[bar]? = some measure) (inMeasure : measure[place]? = some step)
    {order : List Int} {spacing duration : Int}
    (shape : step.ornament = some (.arpeggio order spacing duration)) (played : step.playingOrder ≠ [])
    (forward : 1 ≤ spacing) (lasting : 0 ≤ duration) :
    (∀ (v : Voice) (slot length : Int) (slots : Slots), 0 ≤ slot → ∃ after,
      (Figure.arpeggio v step.playingOrder spacing duration (slot + length - duration) slot).perform slots =
        .ok after ∧ Unrolls v step.playingOrder spacing duration slot length slots after) ∧
    (∃ chain, Step.IsFirstChain chain (step :: stepsAfter (s.measuresOf name) bar place measure) ∧
      soundingLength step (stepsAfter (s.measuresOf name) bar place measure) = Measure.duration chain ∧
      s.tiedDuration name bar place = Measure.duration chain) ∧
    (step.isError = false → step.tiesBackward = false →
      ∀ samples floor channel stepsPerMeasure slot,
        slot = bar * stepsPerMeasure + Measure.duration (measure.take place) →
        Figure.arpeggio ⟨channel, clampData step.velocity⟩ step.playingOrder spacing duration
          (slot + soundingLength step (stepsAfter (s.measuresOf name) bar place measure) - duration) slot ∈
            measuresFigures samples floor channel stepsPerMeasure 0 (s.measuresOf name)) := by
  refine ⟨fun v slot length slots placed => ?_, ?_, ?_⟩
  · exact perform_arpeggio played forward lasting placed v length slots
  · obtain ⟨chain, first, long⟩ :=
      step.exists_firstChain (stepsAfter (s.measuresOf name) bar place measure)
    refine ⟨chain, first, by rw [tiedLength_eq_soundingLength, long], ?_⟩
    rw [MusicalSection.tiedDuration, elementsFrom_natCast, elementsFrom_natCast,
      drop_flatten_eq_cons inSection inMeasure, long]
  · rintro clean begins samples floor channel stepsPerMeasure slot rfl
    refine (isInfix_figuresAt inSection inMeasure stepsPerMeasure).subset ?_
    simp [stepFigures, clean, begins, starts, shape]

def rockingNotes (held : Bool) : Step :=
  { kind := .synth, pitches := [60, 64], length := 12, tiesForward := held, tiesBackward := !held,
    ornament := some (.arpeggio [1, 2] 3 2) }

def rockingSection : MusicalSection := ⟨"a", [("s", [[rockingNotes true], [rockingNotes false]])]⟩

theorem arpeggio_unrolls_of_rockingNotes : rockingSection.tiedDuration "s" 0 0 = 24 ∧ ∃ after,
    (Figure.arpeggio ⟨0, 80⟩ [60, 64] 3 2 (0 + 24 - 2) 0).perform #[] = .ok after ∧
      Unrolls ⟨0, 80⟩ [60, 64] 3 2 0 24 #[] after := by
  have inSection : (rockingSection.measuresOf "s")[0]? = some [rockingNotes true] := rfl
  have inMeasure : [rockingNotes true][0]? = some (rockingNotes true) := rfl
  have unrolls := arpeggio_unrolls inSection inMeasure rfl (by decide) (by decide) (by decide)
  obtain ⟨after, performed, unrolled⟩ := unrolls.1 ⟨0, 80⟩ 0 24 #[] (by decide)
  exact ⟨by decide, after, performed, unrolled⟩

end Performance

end

end ScoreScript
