import ScoreScript.Compilation
import ScoreScript.Proofs.Layout
import ScoreScript.Proofs.Line
import ScoreScript.Proofs.Script

set_option autoImplicit false

namespace ScoreScript

open ScoreScript.Measure

structure MusicalSection.Regular (s : MusicalSection) : Prop where
  tied : ∀ instrument, WellTied Step.tone (s.measuresOf instrument)
  lasting : ∀ instrument, AllLasting (s.measuresOf instrument)

structure Score.Regular (c : Score) : Prop where
  forward : 0 < c.grid.stepsPerMeasure
  ornaments : ∀ {name ornament}, c.ornaments.find? name = some ornament → ornament.IsLasting
  music : ∀ s ∈ c.sections, s.Regular

namespace Notation

theorem isKept_isLasting {ctx : Context}
    (ornaments : ∀ {name ornament}, ctx.ornaments.find? name = some (some ornament) →
      ornament.IsLasting) :
    Bar.IsKept ctx Step.IsLasting where
  made word chord length := by
    refine ⟨?_, fun ornament played => ?_⟩
    · rw [stepOf, Step.Draft.finish_length]
      omega
    · obtain ⟨name, found⟩ := stepOf_ornament played
      exact ornaments found
  silent length positive := ⟨positive, by simp⟩
  longer s length positive lasting := by
    refine ⟨?_, lasting.ornament⟩
    have := lasting.length
    dsimp only
    omega
  held s lasting := ⟨lasting.length, lasting.ornament⟩
  continued s length positive lasting := ⟨positive, lasting.ornament⟩

end Notation

namespace Score

variable {c after : Score}

theorem Regular.of_same (regular : c.Regular) (grid : after.grid = c.grid)
    (ornaments : after.ornaments = c.ornaments) (music : after.sections = c.sections) : after.Regular :=
  ⟨by rw [grid]; exact regular.forward, by rw [ornaments]; exact regular.ornaments,
    by rw [music]; exact regular.music⟩

theorem stepsPerMeasure_of_ofSignature? {signature : Text} {grid : Grid}
    (found : Grid.ofSignature? signature = some grid) : 0 < grid.stepsPerMeasure := by
  obtain ⟨entry, listed, rfl⟩ := Option.map_eq_some_iff.1 found
  have positive : ∀ entry ∈ Grid.signatures, 0 < entry.2.stepsPerMeasure := by decide
  exact positive entry (List.mem_of_find?_eq_some listed)

theorem Regular.enterOrnament (regular : c.Regular) (name : Text) {ornament : Ornament}
    (lasting : ornament.IsLasting) :
    ({ c with ornaments := c.ornaments.insert name ornament } : Score).Regular := by
  refine ⟨regular.forward, fun {key other} found => ?_, regular.music⟩
  rw [Table.find?_insert] at found
  split at found
  · cases found
    exact lasting
  · exact regular.ornaments found

theorem isLasting_of_inRange {ornament : Ornament} (ranged : ornament.InRange) : ornament.IsLasting := by
  cases ornament with
  | arpeggio order spacing duration =>
    have bounds := ranged.2
    change 0 < duration
    omega
  | strum => trivial

theorem Edit.regular {settings : Settings} (edit : Edit settings c after) (regular : c.Regular) :
    after.Regular := by
  -- only a time signature and an ornament touch what is kept
  cases edit with
  | free | bpm | transposition | declare | change => exact regular.of_same rfl rfl rfl
  | time known => exact ⟨stepsPerMeasure_of_ofSignature? known, regular.ornaments, regular.music⟩
  | ornament name ranged => exact regular.enterOrnament name (isLasting_of_inRange ranged)

theorem regular_of_edits {settings : Settings} (edits : Edits settings c after)
    (regular : c.Regular) : after.Regular := by
  induction edits with
  | refl => exact regular
  | tail _ edit ih => exact edit.regular ih

theorem find?_of_contextOf {i : Instrument} {name : Text} {ornament : Ornament}
    (found : (contextOf c i).ornaments.find? name = some (some ornament)) :
    c.ornaments.find? name = some ornament := by
  have map (table : Table Ornament) :
      Table.find? (table.map fun entry => (entry.1, some entry.2)) name =
        (Table.find? table name).map some := by
    induction table with
    | nil => rfl
    | cons entry rest ih =>
      rw [List.map_cons, Table.find?_cons, ih, Table.find?_cons]
      split <;> rfl
  obtain ⟨_, known, same⟩ := Option.map_eq_some_iff.1 ((map c.ornaments).symm.trans found)
  cases same
  exact known

theorem regular_readMusicLines {c : Score} (regular : c.Regular) (stepVelocity : Int) (depth : Nat)
    (s : Script.Section) : (readMusicLines c stepVelocity depth s).1.Regular := by
  constructor
  · refine measuresOf_readMusicLines (WellTied Step.tone) ⟨tiedBars_nil, rfl⟩
      (fun name chordAt line phrases measures tied => ?_) depth s
    exact Notation.wellTied_addLine _ chordAt line Step.tone_ignoresTies phrases tied
  · refine allSteps_readMusicLines (fun name => Notation.isKept_isLasting fun found => ?_) depth s
    exact regular.ornaments (find?_of_contextOf found)

theorem regular_readMusic {settings : Settings} {sections : List Script.Section} {r after : Reading}
    (regular : r.score.Regular) (read : readMusic settings sections r = .ok after) :
    after.score.Regular := by
  obtain ⟨musical, same, music⟩ := readMusic_sections
    (fun _ depth s => regular_readMusicLines regular _ depth s) regular.music read
  rw [same]
  exact ⟨regular.forward, regular.ornaments, music⟩

theorem retouched_apply (change : ControlChange) (measure : Measure) :
    Retouched Step.tone measure (change.apply measure) := by
  cases change with
  | velocity text => exact .of_ties (by simp [ControlChange.apply, ties, Step.tone])
  | messages changes =>
    cases changes with
    | nil => exact .refl measure
    | cons first rest =>
      cases measure with
      -- the silent step of an empty measure has no ties
      | nil => exact ⟨fun _ => ⟨by simp [ControlChange.apply], by simp [ControlChange.apply]⟩, rfl, rfl⟩
      | cons step later => exact .of_ties (by simp [ControlChange.apply, ties, Step.tone])

theorem isKept_isLasting (change : ControlChange) : change.IsKept Step.IsLasting where
  velocity _ _ _ lasting := ⟨lasting.length, lasting.ornament⟩
  messages _ _ _ lasting := ⟨lasting.length, lasting.ornament⟩
  carrier _ _ := ⟨Int.le_refl _, by simp⟩

theorem wellTied_controlledMeasures {s : MusicalSection} (regular : s.Regular) (instrument : Text) :
    WellTied Step.tone (controlledMeasures s instrument) := by
  unfold controlledMeasures
  split
  · decide
  · exact regular.tied instrument

theorem regular_applyChange {s : MusicalSection} (regular : s.Regular) (target : ControlTarget)
    (change : ControlChange) : (applyChange target change s).Regular := by
  refine ⟨fun instrument => ?_, allSteps_applyChange (isKept_isLasting change) target regular.lasting⟩
  rw [applyChange, MusicalSection.measuresOf_insert]
  split
  · refine (wellTied_controlledMeasures regular _).mapIdx fun index measure => ?_
    split
    · exact retouched_apply change measure
    · exact .refl measure
  · exact regular.tied instrument

theorem regular_readControl {r after : Reading} {s : Option Script.Section} (regular : r.score.Regular)
    (read : readControl r s = .ok after) : after.score.Regular := by
  obtain ⟨musical, same, music⟩ := readControl_sections
    (fun _ _ target change _ _ kept => regular_applyChange kept target change) regular.music read
  rw [same]
  exact ⟨regular.forward, regular.ornaments, music⟩

theorem regular_initial : ({} : Score).Regular :=
  ⟨by decide, fun found => by simp at found, by simp⟩

theorem regular_ofSections {settings : Settings} {sections : List Script.Section} {r : Reading}
    (read : ofSections settings sections = .ok r) : r.score.Regular := by
  rw [ofSections_eq] at read
  obtain ⟨filled, read, control⟩ := Fault.bind_eq_ok.1 read
  obtain ⟨composed, before, music⟩ := Fault.bind_eq_ok.1 read
  have regular := regular_of_edits (edits_beforeMusic before) regular_initial
  exact regular_readControl (regular_readMusic regular music) control

theorem Regular.restore {c : Score} (regular : c.Regular) (earlier : Option Selection) :
    (c.restore earlier).Regular :=
  regular.of_same rfl rfl rfl

end Score

namespace Compilation

open Performance

theorem regular {settings : Settings} {earlier : Option Selection} {text : Text} {c : Compilation}
    (compiled : ofText settings earlier text = .ok c) :
    c.score.Regular ∧ ∃ floor, c.score.timeline floor = .ok c.timeline := by
  obtain ⟨reading, read, timed⟩ := Fault.bind_eq_ok.1 compiled
  obtain ⟨timeline, laid, same⟩ := Fault.bind_eq_ok.1 timed
  cases same
  obtain ⟨floor, -, laid⟩ := Fault.bind_eq_ok.1 laid
  exact ⟨(Score.regular_ofSections read).restore earlier, floor, laid⟩

def packaged (text : Text) : Except Fault Compilation := do
  ofText (← Settings.ofPartial .null) none text

def bareSettings : Settings :=
  { document := []
    ticksPerBeat := .int 960
    stepVelocity := .int 80
    endpoint := .text "MIDI Input"
    instrumentVelocity := .int 100
    sound := []
    velocityFloor := .int 20
    maxDepth := .int 8 }

end Compilation

namespace Performance

variable {c : Score}

theorem mem_sections_of_mem_playedSections {s : MusicalSection} (member : s ∈ playedSections c) :
    s ∈ c.sections := by
  obtain ⟨item, -, found⟩ := List.mem_filterMap.1 member
  split at found
  · exact List.mem_of_find?_eq_some found
  · cases found

theorem regular_of_mem_schedule (regular : c.Regular) {start : Int} {s : MusicalSection}
    (member : (start, s) ∈ schedule c 0 (playedSections c)) : s.Regular :=
  regular.music s (mem_sections_of_mem_playedSections (mem_of_mem_schedule member))

theorem tiedRow_instrumentOnsets {s : MusicalSection} (regular : s.Regular) (i : Instrument) :
    TiedRow Step.tone ((instrumentOnsets c s i).map Onset.step) := by
  rw [instrumentOnsets, map_step_onsets]
  exact (regular.tied i.name).tiedRow

theorem getElem?_slots (regular : c.Regular) {floor : Int} {timeline : Timeline}
    (done : c.timeline floor = .ok timeline) (slot : Nat) :
    (timeline.slots[slot]?).getD [] =
      Placed.eventsAt (scheduledEvents c floor (c.instruments.filter (·.selected))
        (schedule c 0 (playedSections c))) slot := by
  have forward := Int.le_of_lt regular.forward
  refine getElem?_timeline forward (fun s played => ?_) done slot
  have music := regular.music s (mem_sections_of_mem_playedSections played)
  exact slot_sectionEvents forward fun i _ => music.lasting i.name

end Performance

end ScoreScript
