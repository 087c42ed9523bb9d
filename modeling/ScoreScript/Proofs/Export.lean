import ScoreScript.Proofs.StrumTime
import ScoreScript.Proofs.Writable

set_option autoImplicit false

namespace ScoreScript

namespace Timeline

def IsBrief (t : Timeline) : Prop :=
  t.slots.length < 2 ^ 200 ∧ ∀ timed ∈ t.events, ∃ d, timed.2.delay.toRat? = some d ∧ d < 2 ^ 200

instance (t : Timeline) : Decidable t.IsBrief :=
  decidable_of_iff
    (t.slots.length < 2 ^ 200 ∧ ∀ timed ∈ t.events, timed.2.delay.toRat?.any fun d : Rat => d < 2 ^ 200)
    (by simp [IsBrief, Option.any_eq_true])

instance (t : Timeline) : Decidable t.HasLatinNames :=
  inferInstanceAs (Decidable (∀ timed ∈ t.events, _))

theorem mem_events {t : Timeline} {slot : Nat} {e : Event} (member : (slot, e) ∈ t.events) :
    ∃ events, t.slots[slot]? = some events ∧ e ∈ events := by
  obtain ⟨⟨events, place⟩, listed, inSlot⟩ := List.mem_flatMap.1 member
  obtain ⟨own, present, same⟩ := List.mem_map.1 inSlot
  cases same
  exact ⟨events, List.mem_zipIdx_iff_getElem?.1 listed, present⟩

end Timeline

namespace Midi

open Binary64

theorem exists_stepsToTicks {spb : Int} (grid : spb = 12 ∨ spb = 6) {slot : Nat}
    (bounded : slot < 2 ^ 200) : ∃ ticks, stepsToTicks slot spb defaultResolution = .ok ticks := by
  obtain ⟨n, known⟩ := exists_ticksOfSlot grid
  have few : 1 ≤ n ∧ n ≤ 160 := by omega
  rcases Nat.eq_zero_or_pos slot with rfl | positive
  · exact ⟨_, stepsToTicks_slot known (by norm_num)⟩
  · have least : (1 : Rat) ≤ slot := by exact_mod_cast positive
    have most : (slot : Rat) ≤ 2 ^ 200 := by exact_mod_cast bounded.le
    have low : (1 : Rat) ≤ n := by exact_mod_cast few.1
    have high : (n : Rat) ≤ 160 := by exact_mod_cast few.2
    have above : (1 : Rat) ≤ slot * n := one_le_mul_of_one_le_of_one_le least low
    have below : (slot * n : Rat) ≤ 2 ^ 200 * 160 := mul_le_mul most high (by linarith) (by norm_num)
    obtain ⟨r, whole, near⟩ := (Near.refl (slot : Rat)).ofRat (by norm_num)
      (isModerate_of_le (by norm_num; linarith) (by linarith))
    obtain ⟨s, ticks, -⟩ := near.mul (m := n) (by norm_num) (by linarith)
      (isModerate_of_le (by norm_num; linarith) (by norm_num; linarith))
    have start : ofWhole slot = .ok (number r) := by
      rw [ofWhole, ofInt, Int.cast_natCast, whole]
      rfl
    have quotient := ofQuotient_defaultResolution known
    have forward : ¬spb ≤ 0 := by omega
    refine ⟨roundHalfEven s, ?_⟩
    simp only [stepsToTicks, if_neg forward, quotient, start, bind, Except.bind, ticks]
    rfl

theorem exists_millisecondsToTicks {delay : Binary64} {n : Nat} (late : delay = .ofInt n)
    (positive : 0 < n) {d : Rat} (same : delay.toRat? = some d) (soon : d < 2 ^ 200) {bpm : Int}
    (slow : 0 ≤ bpm) (fast : bpm ≤ 255) :
    ∃ ticks, millisecondsToTicks delay bpm defaultResolution = .ok ticks := by
  obtain ⟨pace, rfl⟩ := Int.eq_ofNat_of_zero_le slow
  rcases Nat.eq_zero_or_pos pace with rfl | moves
  · exact ⟨0, rfl⟩
  · have finite : (ofRat (n : Rat)).isInfinite = false := by
      have value : delay = ofRat (n : Rat) := by rw [late, ofInt, Int.cast_natCast]
      rw [← value]
      cases delay with
      | infinity => cases same
      | number | negativeZero | undefined => rfl
    have one : (1 : Rat) ≤ n := by exact_mod_cast positive
    have normal : (2 : Rat) ^ (-1022 : Int) ≤ n :=
      le_trans (zpow_le_one_of_nonpos₀ (by norm_num) (by omega)) one
    obtain ⟨r, rounded, near⟩ := near_ofRat normal finite
    have value : delay = .number r := by rw [late, ofInt, Int.cast_natCast, rounded]
    rw [value] at same ⊢
    obtain rfl : r = d := Option.some.inj same
    have half : (1 / 2 : Rat) ≤ r := by
      have := near.1
      rw [pow_one] at this
      linarith
    obtain ⟨ticks, done, -⟩ := millisecondsToTicks_near half soon.le moves (by omega : pace ≤ 255)
    exact ⟨_, done⟩

variable {t : Timeline}

theorem hasTicks_of_isBrief (grid : t.stepsPerBeat = 12 ∨ t.stepsPerBeat = 6) (slow : 0 ≤ t.bpm)
    (fast : t.bpm ≤ 255) (late : ∀ timed ∈ t.events, ∃ n : Nat, timed.2.delay = .ofInt n)
    (brief : t.IsBrief) : t.HasTicks defaultResolution := by
  intro timed member
  obtain ⟨events, here, -⟩ := Timeline.mem_events member
  have inside : timed.1 < t.slots.length := (List.getElem?_eq_some_iff.1 here).1
  obtain ⟨start, first⟩ := exists_stepsToTicks grid (Nat.lt_trans inside brief.1)
  obtain ⟨n, delay⟩ := late timed member
  obtain ⟨d, same, soon⟩ := brief.2 timed member
  unfold tickOf
  rw [first]
  rcases Nat.eq_zero_or_pos n with rfl | positive
  · rw [delay]
    exact ⟨start, rfl⟩
  · obtain ⟨extra, second⟩ := exists_millisecondsToTicks delay positive same soon slow fast
    rw [second]
    change ∃ tick, (if timed.2.delay.isZero then Except.ok start else .ok (start + extra)) = .ok tick
    split <;> exact ⟨_, rfl⟩

end Midi

namespace Performance

theorem Gives.delay_eq {samples : Table Sample} {floor channel : Int} {s : Step} {e : Event}
    (gives : Gives samples floor channel s e) (ranged : ∀ ornament ∈ s.ornament, ornament.InRange) :
    ∃ n : Nat, e.delay = .ofInt n := by
  cases gives with
  | @message m => cases m <;> exact ⟨0, rfl⟩
  | noteOn | noteOff | sample => exact ⟨0, rfl⟩
  | @strummed order delay decay note k clean shape =>
    have bounds := (ranged _ shape).1
    have nonneg : 0 ≤ (k : Int) * delay := Int.mul_nonneg (Int.natCast_nonneg k) (by omega)
    obtain ⟨n, same⟩ := Int.eq_ofNat_of_zero_le nonneg
    exact ⟨n, by rw [Voice.strummed, same]⟩

end Performance

namespace Score

open Performance

variable {settings : Settings} {c : Score} {floor : Int} {timeline : Timeline}

theorem delay_of_mem_events (regular : c.Regular) (ornamented : c.IsOrnamented)
    (done : c.timeline floor = .ok timeline) :
    ∀ timed ∈ timeline.events, ∃ n : Nat, timed.2.delay = .ofInt n := by
  intro timed member
  obtain ⟨events, here, present⟩ := Timeline.mem_events member
  obtain ⟨s, loaded, i, -, measure, inSection, step, inMeasure, gives⟩ :=
    gives_of_mem_slots regular done (List.mem_of_getElem? here) present
  exact gives.delay_eq (ornamented s loaded i.name measure inSection step inMeasure)

def HasFewBeats (c : Score) : Prop := 0 ≤ c.grid.beats ∧ c.grid.beats ≤ 255

theorem hasFewBeats_of_edits {edited : Score} (edits : Edits settings c edited) (few : c.HasFewBeats) :
    edited.HasFewBeats := by
  induction edits with
  | refl => exact few
  | tail _ edit ih =>
    cases edit with
    | free | bpm | transposition | declare | change | ornament => exact ih
    | time known =>
      obtain ⟨entry, listed, rfl⟩ := Option.map_eq_some_iff.1 known
      have table : ∀ entry ∈ Grid.signatures, 0 ≤ entry.2.beats ∧ entry.2.beats ≤ 255 := by decide
      exact table entry (List.mem_of_find?_eq_some listed)

theorem hasFewBeats_ofSections {sections : List Script.Section} {r : Reading}
    (read : ofSections settings sections = .ok r) : r.score.HasFewBeats := by
  obtain ⟨composed, musical, edits, same⟩ := edits_ofSections read
  have few : composed.HasFewBeats := hasFewBeats_of_edits edits ⟨by decide, by decide⟩
  rw [same]
  exact few

theorem beats_timeline (done : c.timeline floor = .ok timeline) : timeline.beats = c.grid.beats := by
  obtain ⟨slots, -, same⟩ := Fault.bind_eq_ok.1 done
  cases same
  rfl

end Score

namespace Compilation

variable {settings : Settings} {earlier : Option Selection} {text : Text} {c : Compilation}

theorem hasFewBeats (compiled : ofText settings earlier text = .ok c) : c.score.HasFewBeats := by
  rw [ofText_eq] at compiled
  obtain ⟨r, read, timed⟩ := Fault.bind_eq_ok.1 compiled
  obtain ⟨timeline, -, same⟩ := Fault.bind_eq_ok.1 timed
  cases same
  exact Score.hasFewBeats_ofSections read

/-- What compiles can be written to a file just if it has four beats a minute or more, the names of the
samples that it plays are Latin-1, and double precision can say when its events come, which it can up to
`2 ^ 200` slots and milliseconds. -/
theorem exports_iff (compiled : ofText settings earlier text = .ok c) :
    ((∃ chunks, Midi.file c.timeline Midi.defaultResolution = .ok chunks) ↔
      4 ≤ c.timeline.bpm ∧ c.timeline.HasLatinNames ∧ c.timeline.HasTicks Midi.defaultResolution) ∧
    (c.timeline.IsBrief → c.timeline.HasTicks Midi.defaultResolution) := by
  obtain ⟨regular, floor, done⟩ := Compilation.regular compiled
  obtain ⟨ornamented, paced⟩ := origin compiled
  obtain ⟨bpm, grid⟩ := Score.pace_timeline done
  have late := Score.delay_of_mem_events regular ornamented done
  have slow : 0 ≤ c.timeline.bpm := by rw [bpm]; exact paced.slow
  have fast : c.timeline.bpm ≤ 255 := by rw [bpm]; exact paced.fast
  constructor
  · refine Midi.file_written_iff ?_ slow fast fun timed member => ?_
    · rw [Score.beats_timeline done]
      exact hasFewBeats compiled
    · obtain ⟨n, delay⟩ := late timed member
      rw [delay]
      exact Binary64.isNonneg_ofInt (Int.natCast_nonneg n)
  · exact Midi.hasTicks_of_isBrief (by rw [grid]; exact paced.grid) slow fast late

theorem exports_of_strummedChord : ∃ c, packaged strummedChord = .ok c ∧
    ∃ chunks, Midi.file c.timeline Midi.defaultResolution = .ok chunks := by
  have fits : ((packaged strummedChord).toOption.any fun c => decide (4 ≤ c.timeline.bpm ∧
      c.timeline.HasLatinNames ∧ c.timeline.IsBrief)) = true := by
    decide +kernel
  obtain ⟨c, compiled, fits⟩ := Fault.exists_ok_of_any fits
  obtain ⟨quick, latin, brief⟩ := of_decide_eq_true fits
  obtain ⟨settings, -, read⟩ := Fault.bind_eq_ok.1 compiled
  have exports := exports_iff read
  exact ⟨c, compiled, exports.1.2 ⟨quick, latin, exports.2 brief⟩⟩

def stillScore : Text :=
  "[composition]\nplaylist: a\nBPM: 0\n[instruments]\ns: octave=3\n[a]\ns: 1"

theorem stillScore_not_exported : ∃ c, packaged stillScore = .ok c ∧ c.isPlayable = true ∧
    c.reports = [] ∧ ¬∃ chunks, Midi.file c.timeline Midi.defaultResolution = .ok chunks := by
  have fails : ((packaged stillScore).toOption.any fun c => decide (c.isPlayable = true ∧
      c.reports = [] ∧ (Midi.file c.timeline Midi.defaultResolution).toOption = none)) = true := by
    decide +kernel
  obtain ⟨c, compiled, fails⟩ := Fault.exists_ok_of_any fails
  obtain ⟨playable, clean, fails⟩ := of_decide_eq_true fails
  refine ⟨c, compiled, playable, clean, fun ⟨chunks, done⟩ => ?_⟩
  rw [done] at fails
  cases fails

end Compilation

end ScoreScript
