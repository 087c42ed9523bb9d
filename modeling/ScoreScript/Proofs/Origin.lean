import ScoreScript.Proofs.Pitch
import ScoreScript.Proofs.Reading

set_option autoImplicit false

namespace ScoreScript

namespace Score

structure InRange (c : Score) : Prop where
  ornaments : ∀ {name ornament}, c.ornaments.find? name = some ornament → ornament.InRange
  instruments : ∀ i ∈ c.instruments, i.InRange

variable {settings : Settings} {c edited : Score}

theorem forall_changeInstrument {keeps : Instrument → Prop} {name : Text}
    {change : Instrument → Instrument} (kept : ∀ i, keeps i → keeps (change i))
    {instruments : List Instrument} (whole : ∀ i ∈ instruments, keeps i) :
    ∀ i ∈ changeInstrument name change instruments, keeps i := by
  induction instruments with
  | nil => simp [changeInstrument]
  | cons i rest ih =>
    obtain ⟨here, later⟩ := List.forall_mem_cons.1 whole
    unfold changeInstrument
    split
    · exact List.forall_mem_cons.2 ⟨kept i here, later⟩
    · exact List.forall_mem_cons.2 ⟨here, ih later⟩

theorem Edit.inRange_ornaments (edit : Edit settings c edited)
    (ranged : ∀ {name ornament}, c.ornaments.find? name = some ornament → ornament.InRange)
    {name : Text} {ornament : Ornament} (found : edited.ornaments.find? name = some ornament) :
    ornament.InRange := by
  cases edit with
  | free | bpm | time | transposition | declare | change => exact ranged found
  | ornament entered bounded =>
    rw [Table.find?_insert] at found
    split at found
    · cases found
      exact bounded
    · exact ranged found

theorem inRange_ornaments_of_edits (edits : Edits settings {} c) :
    ∀ {name ornament}, c.ornaments.find? name = some ornament → ornament.InRange := by
  induction edits with
  | refl => exact fun found => by simp at found
  | tail _ edit ih => exact edit.inRange_ornaments ih

theorem Edit.inRange (edit : Edit settings c edited)
    (loud : ∀ {velocity}, settings.instrumentVelocity.toInt = .ok velocity → IsData velocity)
    (ranged : c.InRange) : edited.InRange := by
  refine ⟨edit.inRange_ornaments ranged.ornaments, ?_⟩
  cases edit with
  | free | bpm | time | transposition | ornament => exact ranged.instruments
  | declare new read =>
    refine List.forall_mem_append.2 ⟨ranged.instruments, ?_⟩
    have fresh : (0 : Int) ≤ 0 ∧ (0 : Int) ≤ 15 := by decide
    exact List.forall_mem_singleton.2 ⟨fresh, fresh.1, loud read⟩
  | change name named kept => exact forall_changeInstrument kept ranged.instruments

theorem inRange_of_edits (edits : Edits settings c edited)
    (loud : ∀ {velocity}, settings.instrumentVelocity.toInt = .ok velocity → IsData velocity)
    (ranged : c.InRange) : edited.InRange := by
  induction edits with
  | refl => exact ranged
  | tail _ edit ih => exact edit.inRange loud ih

theorem inRange_instruments_restore (ranged : ∀ i ∈ c.instruments, i.InRange)
    (earlier : Option Selection) : ∀ i ∈ (c.restore earlier).instruments, i.InRange := by
  intro i member
  rw [Score.restore, Selection.apply] at member
  obtain ⟨place, bound, rfl⟩ := List.mem_iff_getElem.1 member
  have inScore : place < c.instruments.length := by
    rw [List.length_zipWith] at bound
    omega
  have old := ranged c.instruments[place] (List.getElem_mem inScore)
  rw [List.getElem_zipWith]
  exact old

theorem inRange_restore (ranged : c.InRange) (earlier : Option Selection) :
    (c.restore earlier).InRange :=
  ⟨ranged.ornaments, inRange_instruments_restore ranged.instruments earlier⟩

def Orders (c : Score) (line : Script.Line) (m : ControlMessage) : Prop :=
  ∃ target messages, c.Asks line target (.messages messages) ∧ m ∈ messages

end Score

structure Step.IsWritten (c : Score) (lines : List Script.Line) (s : Step) : Prop where
  pitched : s.IsPitched c.literals
  ornament : ∀ ornament ∈ s.ornament, ∃ name, c.ornaments.find? name = some ornament
  messages : ∀ m ∈ s.messages, ∃ line ∈ lines, c.Orders line m

namespace Score

structure IsWritten (c : Score) (lines : List Script.Line) : Prop where
  inRange : c.InRange
  music : ∀ s ∈ c.sections, s.AllSteps (Step.IsWritten c lines)

variable {settings : Settings} {c : Score}

theorem isKept_isWritten (c : Score) (i : Instrument) :
    Notation.Bar.IsKept (contextOf c i) (Step.IsWritten c []) where
  made word chord length :=
    { pitched := Notation.isPitched_stepOf (contextOf c i) word length chord
      ornament := fun ornament played => by
        obtain ⟨name, found⟩ := Notation.stepOf_ornament played
        exact ⟨name, find?_of_contextOf found⟩
      messages := by simp [Notation.stepOf, Step.Draft.finish_messages] }
  silent length _ := ⟨fun _ _ member => by simp at member, by simp, by simp⟩
  longer s length _ written := ⟨written.pitched, written.ornament, written.messages⟩
  held s written := ⟨written.pitched, written.ornament, written.messages⟩
  continued s length _ written :=
    ⟨written.pitched, written.ornament, by simp [Notation.Bar.continuation]⟩

theorem Asks.isKept_isWritten {lines : List Script.Line} {line : Script.Line} {target : ControlTarget}
    {change : ControlChange} (asked : c.Asks line target change) (member : line ∈ lines) :
    change.IsKept (Step.IsWritten c lines) where
  velocity _ _ _ written := ⟨written.pitched, written.ornament, written.messages⟩
  messages messages same s written := by
    subst same
    refine ⟨written.pitched, written.ornament, List.forall_mem_append.2 ⟨written.messages, ?_⟩⟩
    exact fun m ordered => ⟨line, member, target, messages, asked, ordered⟩
  carrier messages same := by
    subst same
    refine ⟨fun _ _ member => by simp at member, by simp, ?_⟩
    exact fun m ordered => ⟨line, member, target, messages, asked, ordered⟩

def controlLines (sections : List Script.Section) : List Script.Line :=
  ((Script.find? sections controlName).map Script.Section.lines).getD []

theorem isWritten_ofSections {sections : List Script.Section} {r : Reading}
    (loud : ∀ {velocity}, settings.instrumentVelocity.toInt = .ok velocity → IsData velocity)
    (read : ofSections settings sections = .ok r) : r.score.IsWritten (controlLines sections) := by
  rw [ofSections_eq] at read
  obtain ⟨filled, read, control⟩ := Fault.bind_eq_ok.1 read
  obtain ⟨composed, before, music⟩ := Fault.bind_eq_ok.1 read
  have ranged : composed.score.InRange :=
    inRange_of_edits (edits_beforeMusic before) loud ⟨fun found => by simp at found, by simp⟩
  obtain ⟨first, same, played⟩ := readMusic_sections
    (fun _ => allSteps_readMusicLines fun _ => isKept_isWritten composed.score _)
    (by simp [sections_of_edits (edits_beforeMusic before)]) music
  obtain ⟨last, same', written⟩ := @readControl_sections _ _
    (MusicalSection.AllSteps (Step.IsWritten filled.score (controlLines sections))) _
    (fun line member target change asked s all =>
      allSteps_applyChange (asked.isKept_isWritten member) target all)
    (by
      rw [same]
      exact fun s member => (played s member).imp fun step written =>
        ⟨written.pitched, written.ornament, fun m ordered => by simpa using written.messages m ordered⟩)
    control
  rw [same] at same' written
  rw [same']
  refine ⟨⟨ranged.ornaments, ranged.instruments⟩, fun s member => (written s member).imp ?_⟩
  exact fun step written => ⟨written.pitched, written.ornament, written.messages⟩

def IsOrnamented (c : Score) : Prop :=
  ∀ s ∈ c.sections, s.AllSteps fun step => ∀ ornament ∈ step.ornament, ornament.InRange

theorem IsWritten.isOrnamented {lines : List Script.Line} (written : c.IsWritten lines) :
    c.IsOrnamented := by
  intro s loaded
  refine (written.music s loaded).imp fun step own ornament shape => ?_
  obtain ⟨name, found⟩ := own.ornament ornament shape
  exact written.inRange.ornaments found

theorem beforeControl_cases {sections : List Script.Section} {r : Reading}
    (read : beforeControl settings sections = .ok r) :
    r.score.Regular ∧ r.score.IsOrnamented ∧
      ∀ s ∈ r.score.sections, s.AllSteps fun step => step.messages = [] := by
  obtain ⟨composed, before, music⟩ := Fault.bind_eq_ok.1 read
  have edits := edits_beforeMusic before
  obtain ⟨musical, same, played⟩ := readMusic_sections
    (fun _ => allSteps_readMusicLines fun _ => isKept_isWritten composed.score _)
    (by simp [sections_of_edits edits]) music
  refine ⟨regular_readMusic (regular_of_edits edits regular_initial) music, ?_, ?_⟩
  · intro s loaded
    rw [same] at loaded
    refine (played s loaded).imp fun step own ornament shape => ?_
    obtain ⟨name, found⟩ := own.ornament ornament shape
    exact inRange_ornaments_of_edits edits found
  · intro s loaded
    rw [same] at loaded
    refine (played s loaded).imp fun step own => ?_
    apply List.eq_nil_iff_forall_not_mem.2
    intro m member
    obtain ⟨line, none, -⟩ := own.messages m member
    cases none

theorem IsWritten.restore {lines : List Script.Line} (written : c.IsWritten lines)
    (earlier : Option Selection) : (c.restore earlier).IsWritten lines :=
  ⟨inRange_restore written.inRange earlier, fun s member => (written.music s member).imp fun _ step =>
    ⟨step.pitched, step.ornament, step.messages⟩⟩

theorem isOrnamented_readControl {r after : Reading} {control : Option Script.Section}
    (ornamented : r.score.IsOrnamented) (read : readControl r control = .ok after) :
    after.score.IsOrnamented := by
  have kept (change : ControlChange) :
      change.IsKept fun step => ∀ ornament ∈ step.ornament, ornament.InRange :=
    ⟨fun _ _ _ ranged => ranged, fun _ _ _ ranged => ranged, by simp⟩
  obtain ⟨musical, same, ornamented⟩ := readControl_sections
    (fun _ _ target change _ _ all => allSteps_applyChange (kept change) target all) ornamented read
  rw [same]
  exact ornamented

theorem isOrnamented_ofSections {sections : List Script.Section} {r : Reading}
    (read : ofSections settings sections = .ok r) : r.score.IsOrnamented := by
  rw [ofSections_eq] at read
  obtain ⟨filled, before, control⟩ := Fault.bind_eq_ok.1 read
  exact isOrnamented_readControl (beforeControl_cases before).2.1 control

structure IsPaced (c : Score) : Prop where
  slow : 0 ≤ c.bpm
  fast : c.bpm ≤ 255
  grid : c.grid.stepsPerBeat = 12 ∨ c.grid.stepsPerBeat = 6

theorem stepsPerBeat_of_ofSignature? {signature : Text} {grid : Grid}
    (found : Grid.ofSignature? signature = some grid) :
    grid.stepsPerBeat = 12 ∨ grid.stepsPerBeat = 6 := by
  obtain ⟨entry, listed, rfl⟩ := Option.map_eq_some_iff.1 found
  have known : ∀ entry ∈ Grid.signatures, entry.2.stepsPerBeat = 12 ∨ entry.2.stepsPerBeat = 6 := by
    decide
  exact known entry (List.mem_of_find?_eq_some listed)

theorem isPaced_of_edits {edited : Score} (edits : Edits settings c edited) (paced : c.IsPaced) :
    edited.IsPaced := by
  induction edits with
  | refl => exact paced
  | tail _ edit paced =>
    cases edit with
    | free | transposition | declare | change | ornament => exact ⟨paced.slow, paced.fast, paced.grid⟩
    | bpm low high => exact ⟨low, high, paced.grid⟩
    | time known => exact ⟨paced.slow, paced.fast, stepsPerBeat_of_ofSignature? known⟩

theorem exists_beforeMusic {sections : List Script.Section} {r : Reading}
    (read : ofSections settings sections = .ok r) :
    ∃ composed musical, beforeMusic settings sections = .ok composed ∧
      r.score = { composed.score with sections := musical } := by
  rw [ofSections_eq] at read
  obtain ⟨filled, read, control⟩ := Fault.bind_eq_ok.1 read
  obtain ⟨composed, before, music⟩ := Fault.bind_eq_ok.1 read
  obtain ⟨first, same, -⟩ :=
    readMusic_sections (fun _ _ _ => trivial) (fun _ _ => trivial) music
  obtain ⟨last, same', -⟩ := readControl_sections (fun _ _ _ _ _ _ _ => trivial)
    (fun _ _ => trivial) control
  exact ⟨composed, last, before, by rw [same', same]⟩

theorem edits_ofSections {sections : List Script.Section} {r : Reading}
    (read : ofSections settings sections = .ok r) :
    ∃ composed musical, Edits settings {} composed ∧
      r.score = { composed with sections := musical } := by
  obtain ⟨composed, musical, before, same⟩ := exists_beforeMusic read
  exact ⟨composed.score, musical, edits_beforeMusic before, same⟩

theorem isPaced_ofSections {sections : List Script.Section} {r : Reading}
    (read : ofSections settings sections = .ok r) : r.score.IsPaced := by
  obtain ⟨composed, musical, edits, same⟩ := edits_ofSections read
  have paced : composed.IsPaced := isPaced_of_edits edits ⟨by decide, by decide, .inl rfl⟩
  rw [same]
  exact ⟨paced.slow, paced.fast, paced.grid⟩

end Score

end ScoreScript
