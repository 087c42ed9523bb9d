import ScoreScript.Proofs.Totality

set_option autoImplicit false

namespace ScoreScript

namespace Event

def data (e : Event) : List Int :=
  match e.kind with
  | .noteOn | .noteOff => [e.note, e.velocity]
  | .controlChange => [e.control, e.value]
  | .programChange => [e.bank, e.program]
  -- a sample is not a message
  | .sample => []

def IsRepresentable (e : Event) : Prop :=
  (0 ≤ e.channel ∧ e.channel ≤ 15) ∧ ∀ n ∈ e.data, IsData n

instance (e : Event) : Decidable e.IsRepresentable := inferInstanceAs (Decidable (_ ∧ _))

theorem data_of_note {e : Event} (isNote : e.kind = .noteOn ∨ e.kind = .noteOff) :
    e.data = [e.note, e.velocity] := by
  rcases isNote with kind | kind <;> simp [data, kind]

end Event

namespace Score

variable {c : Score} {lines : List Script.Line} {e : Event}

/-- Where the events that do not fit come from. A named pitch can leave the range also when it goes up by
octaves; a bank and a program leave it at both ends, as they are counted from one in scripts. -/
inductive Strays (c : Score) (lines : List Script.Line) : Event → Prop where
  | note {e : Event} (isNote : e.kind = .noteOn ∨ e.kind = .noteOff) (outside : ¬IsData e.note)
    (named : IsNamedPitch c.literals e.note) : Strays c lines e
  | controller {channel number value : Int} {line : Script.Line} (member : line ∈ lines)
    (ordered : c.Orders line (.controller number value)) (high : 127 < number) :
    Strays c lines (ControlMessage.event channel (.controller number value))
  | program {channel bank number : Int} {line : Script.Line} (member : line ∈ lines)
    (ordered : c.Orders line (.program bank number)) (outside : ¬(IsData bank ∧ IsData number)) :
    Strays c lines (ControlMessage.event channel (.program bank number))

theorem Strays.not_isRepresentable (strays : c.Strays lines e) : ¬e.IsRepresentable := by
  intro ⟨_, fits⟩
  cases strays with
  | note isNote outside =>
    rw [Event.data_of_note isNote] at fits
    exact outside (fits _ (by simp))
  | controller _ _ high =>
    have small := (fits _ List.mem_cons_self).2
    dsimp only [ControlMessage.event] at small
    omega
  | program _ _ outside => exact outside (by simpa [Event.data, ControlMessage.event] using fits)

theorem Orders.positive {line : Script.Line} {number value : Int}
    (ordered : c.Orders line (.controller number value)) : 0 < number := by
  obtain ⟨target, messages, ⟨-, reports, read⟩, member⟩ := ordered
  unfold ControlChange.read at read
  split_ifs at read
  · cases read
  · split at read
    · cases read
      simp at member
    · cases read
  · obtain ⟨values, -, same⟩ := Fault.bind_eq_ok.1 read
    cases same
    obtain ⟨entry, -, kept⟩ := List.mem_filterMap.1 member
    split at kept
    next positive =>
      cases kept
      exact positive
    next => cases kept
  · cases read

end Score

namespace Performance

variable {c : Score} {lines : List Script.Line} {floor channel : Int} {s : Step} {e : Event}

theorem isData_decayVelocity {velocity percent : Int} (loud : IsData velocity) (low : IsData floor)
    (weaker : 0 ≤ percent) : IsData (decayVelocity velocity percent floor) := by
  have loss : 0 ≤ Int.fdiv (velocity * percent) 100 :=
    Int.fdiv_nonneg (Int.mul_nonneg loud.1 weaker) (by decide)
  simp only [IsData, decayVelocity] at *
  omega

theorem Gives.channel_eq (gives : Gives c.samples floor channel s e) : e.channel = channel := by
  cases gives with
  | @message m => cases m <;> rfl
  | noteOn | noteOff | strummed | sample => rfl

theorem Gives.isData_velocity (gives : Gives c.samples floor channel s e) (written : s.IsWritten c lines)
    (ranged : c.InRange) (low : IsData floor) : IsData e.velocity := by
  have loud := isData_clampData s.velocity
  have silent : IsData 0 := by decide
  cases gives with
  | @message m => cases m <;> exact silent
  | noteOn | noteOff => exact loud
  | strummed _ shape =>
    obtain ⟨name, found⟩ := written.ornament _ shape
    have weaker := (ranged.ornaments found).2.1
    exact Function.Iterate.rec IsData loud (fun _ before => isData_decayVelocity before low weaker) _
  | sample => exact silent

theorem isRepresentable_or_strays_of_note (isNote : e.kind = .noteOn ∨ e.kind = .noteOff)
    (channel : 0 ≤ e.channel ∧ e.channel ≤ 15) (loud : IsData e.velocity)
    (pitch : IsData e.note ∨ IsNamedPitch c.literals e.note) :
    e.IsRepresentable ∨ c.Strays lines e := by
  by_cases inside : IsData e.note
  · left
    refine ⟨channel, ?_⟩
    rw [Event.data_of_note isNote]
    simp [inside, loud]
  · right
    exact .note isNote inside (pitch.resolve_left inside)

theorem Gives.isRepresentable_or_strays (gives : Gives c.samples floor channel s e)
    (written : s.IsWritten c lines) (ranged : c.InRange) (low : IsData floor)
    (sent : 0 ≤ channel ∧ channel ≤ 15) : e.IsRepresentable ∨ c.Strays lines e := by
  have loud := gives.isData_velocity written ranged low
  have heard : 0 ≤ e.channel ∧ e.channel ≤ 15 := by
    rw [gives.channel_eq]
    exact sent
  cases gives with
  | @message m ordered =>
    obtain ⟨line, member, asked⟩ := written.messages m ordered
    cases m with
    | controller number value =>
      by_cases high : 127 < number
      · exact .inr (.controller member asked high)
      · have inside : IsData number := ⟨Int.le_of_lt asked.positive, by omega⟩
        exact .inl ⟨heard, by simp [Event.data, ControlMessage.event, inside, isData_clampData]⟩
    | program bank number =>
      by_cases inside : IsData bank ∧ IsData number
      · exact .inl ⟨heard, by simpa [Event.data, ControlMessage.event] using inside⟩
      · exact .inr (.program member asked inside)
  | noteOn clean pitch =>
    exact isRepresentable_or_strays_of_note (.inl rfl) heard loud (written.pitched clean _ pitch)
  | noteOff clean pitch =>
    exact isRepresentable_or_strays_of_note (.inr rfl) heard loud (written.pitched clean _ pitch)
  | strummed clean _ _ pitch =>
    exact isRepresentable_or_strays_of_note (.inl rfl) heard loud (written.pitched clean _ pitch)
  | sample => exact .inl ⟨heard, by simp [Event.data, sampleEvent]⟩

theorem gives_of_mem_slots (regular : c.Regular) {timeline : Timeline}
    (done : c.timeline floor = .ok timeline) {events : List Event} (member : events ∈ timeline.slots)
    (present : e ∈ events) :
    ∃ musical ∈ c.sections, ∃ i ∈ c.instruments, ∃ measure ∈ musical.measuresOf i.name,
      ∃ step ∈ measure, Gives c.samples floor i.channel step e := by
  obtain ⟨slot, here⟩ := List.mem_iff_getElem?.1 member
  have content := getElem?_slots regular done slot
  rw [here, Option.getD_some] at content
  rw [content, Placed.mem_eventsAt] at present
  obtain ⟨p, placed, -, inside⟩ := present
  obtain ⟨entry, scheduled, moved⟩ := List.mem_flatMap.1 placed
  obtain ⟨original, inSection, rfl⟩ := List.mem_map.1 moved
  obtain ⟨i, listed, measure, inMusic, step, inMeasure, gives⟩ := gives_of_mem_sectionEvents inSection
  exact ⟨entry.2, mem_sections_of_mem_playedSections (mem_of_mem_schedule scheduled), i,
    List.mem_of_mem_filter listed, measure, inMusic, step, inMeasure, gives e inside⟩

end Performance

namespace Compilation

open Performance

variable {settings : Settings} {earlier : Option Selection} {text : Text} {c : Compilation}

theorem isWritten_packaged (packaged : Settings.ofPartial .null = .ok settings)
    (compiled : ofText settings earlier text = .ok c) :
    c.score.IsWritten (Score.controlLines (Script.parse text).1) ∧
      c.score.timeline 20 = .ok c.timeline := by
  rw [ofText_eq] at compiled
  obtain ⟨r, read, timed⟩ := Fault.bind_eq_ok.1 compiled
  obtain ⟨timeline, laid, same⟩ := Fault.bind_eq_ok.1 timed
  cases same
  obtain ⟨floor, low, laid⟩ := Fault.bind_eq_ok.1 laid
  rw [(Settings.packaged_velocities packaged).2.1] at low
  cases low
  exact ⟨(Score.isWritten_ofSections (Settings.isData_packaged packaged) read).restore earlier, laid⟩

/-- With the packaged settings an event does not fit into a message exactly if it strays; its channel and
its velocity always fit. -/
theorem not_isRepresentable_iff (packaged : Settings.ofPartial .null = .ok settings)
    (compiled : ofText settings earlier text = .ok c) :
    ∀ events ∈ c.timeline.slots, ∀ e ∈ events,
      (0 ≤ e.channel ∧ e.channel ≤ 15) ∧ IsData e.velocity ∧
        (¬e.IsRepresentable ↔ c.score.Strays (Score.controlLines (Script.parse text).1) e) := by
  intro events member e present
  obtain ⟨written, laid⟩ := isWritten_packaged packaged compiled
  obtain ⟨regular, -⟩ := Compilation.regular compiled
  obtain ⟨musical, loaded, i, declared, measure, inMusic, step, inMeasure, gives⟩ :=
    gives_of_mem_slots regular laid member present
  have own := written.music musical loaded i.name measure inMusic step inMeasure
  have sent := (written.inRange.instruments i declared).1
  have floor : IsData 20 := by decide
  refine ⟨?_, gives.isData_velocity own written.inRange floor, fun stray => ?_, fun strays => ?_⟩
  · rw [gives.channel_eq]
    exact sent
  · exact (gives.isRepresentable_or_strays own written.inRange floor sent).resolve_left stray
  · exact strays.not_isRepresentable

def strummedChord : Text :=
  "[composition]\nplaylist: a\n[instruments]\ns: octave=3, channel=5\n" ++
    "[sounds]\nd: strum(1,2), vdec=10\n[a]\ns: 13/d 5"

theorem isRepresentable_of_strummedChord : ∃ c, packaged strummedChord = .ok c ∧
    ∀ events ∈ c.timeline.slots, ∀ e ∈ events, e.IsRepresentable := by
  have plain : ((packaged strummedChord).toOption.any fun c => c.score.literals.isEmpty) = true := by
    decide +kernel
  obtain ⟨c, compiled, unnamed⟩ := Fault.exists_ok_of_any plain
  obtain ⟨settings, read, done⟩ := Fault.bind_eq_ok.1 compiled
  refine ⟨c, compiled, fun events member e present => ?_⟩
  have free : Score.controlLines (Script.parse strummedChord).1 = [] := by decide +kernel
  have fits := (not_isRepresentable_iff read done events member e present).2.2
  rw [free] at fits
  by_contra stray
  cases fits.1 stray with
  | note _ _ named =>
    obtain ⟨name, written, found, -⟩ := named
    rw [List.isEmpty_iff.1 unnamed] at found
    cases found
  | controller ordered | program ordered => cases ordered

def highPitch : Text :=
  "[composition]\nplaylist: a\n[instruments]\ns: octave=3\n[sounds]\nk: midi(200)\n[a]\ns: k"

theorem high_pitch_strays : ∃ c, packaged highPitch = .ok c ∧ c.reports = [] ∧
    ∃ events ∈ c.timeline.slots, ∃ e ∈ events, ¬e.IsRepresentable := by
  have strays : ((packaged highPitch).toOption.any fun c => decide (c.reports = [] ∧
      ∃ events ∈ c.timeline.slots, ∃ e ∈ events, ¬e.IsRepresentable)) = true := by
    decide +kernel
  obtain ⟨c, compiled, strays⟩ := Fault.exists_ok_of_any strays
  exact ⟨c, compiled, of_decide_eq_true strays⟩

end Compilation

end ScoreScript
