import ScoreScript.Proofs.Restored
import ScoreScript.Proofs.Tables

set_option autoImplicit false

namespace ScoreScript

structure Step.InRange (s : Step) : Prop where
  length : 1 ≤ s.length
  velocity : IsData s.velocity
  ornament : ∀ ornament ∈ s.ornament, ornament.InRange

structure MusicalSection.WellFormed (s : MusicalSection) : Prop where
  distinct : (s.measures.map Prod.fst).Nodup
  steps : ∀ entry ∈ s.measures, ∀ measure ∈ entry.2, ∀ step ∈ measure, step.InRange

structure Score.WellFormed (c : Score) : Prop where
  bpm : 0 ≤ c.bpm ∧ c.bpm ≤ 255
  transposition : -7 ≤ c.transposition ∧ c.transposition ≤ 7
  grid : Grid.ofSignature? c.signature = some c.grid
  instrumentNames : (c.instruments.map (·.name)).Nodup
  instruments : ∀ i ∈ c.instruments, i.InRange
  ornaments : ∀ entry ∈ c.ornaments, entry.2.InRange
  sectionNames : (c.sections.map (·.name)).Nodup
  sections : ∀ s ∈ c.sections, s.WellFormed

namespace MusicalSection

variable {s : MusicalSection}

theorem WellFormed.allSteps (whole : s.WellFormed) : s.AllSteps Step.InRange :=
  allSteps_of_entries whole.steps

theorem WellFormed.of_allSteps (distinct : (s.measures.map Prod.fst).Nodup)
    (all : s.AllSteps Step.InRange) : s.WellFormed := by
  refine ⟨distinct, fun entry member measure inEntry => all entry.1 measure ?_⟩
  rwa [measuresOf, Table.find?_of_mem distinct member]

end MusicalSection

namespace Score

open Fault

variable {settings : Settings} {c edited : Score} {r after : Reading}

theorem map_name_changeInstrument (name : Text) {change : Instrument → Instrument}
    (named : ∀ i, (change i).name = i.name) (instruments : List Instrument) :
    (changeInstrument name change instruments).map (·.name) = instruments.map (·.name) := by
  induction instruments with
  | nil => rfl
  | cons i rest ih =>
    unfold changeInstrument
    split
    · rw [List.map_cons, named, List.map_cons]
    · rw [List.map_cons, ih, List.map_cons]

theorem Edit.wellFormed (edit : Edit settings c edited)
    (loud : ∀ {velocity}, settings.instrumentVelocity.toInt = .ok velocity → IsData velocity)
    (whole : c.WellFormed) : edited.WellFormed := by
  constructor
  case bpm =>
    cases edit with
    | bpm low high => exact ⟨low, high⟩
    | _ => exact whole.bpm
  case transposition =>
    cases edit with
    | transposition low high => exact ⟨low, high⟩
    | _ => exact whole.transposition
  case grid =>
    cases edit with
    | time known => exact known
    | _ => exact whole.grid
  case instrumentNames =>
    cases edit with
    | @declare name velocity new read =>
      rw [List.map_append]
      refine (List.perm_append_singleton name _).nodup_iff.2 (List.nodup_cons.2 ⟨?_, whole.instrumentNames⟩)
      rintro listed
      obtain ⟨i, member, same⟩ := List.mem_map.1 listed
      exact absurd (decide_eq_true same) (List.find?_eq_none.1 new i member)
    | change name named kept =>
      rw [map_name_changeInstrument name named]
      exact whole.instrumentNames
    | _ => exact whole.instrumentNames
  case instruments =>
    cases edit with
    | declare new read =>
      have fresh : (0 : Int) ≤ 0 ∧ (0 : Int) ≤ 15 := by decide
      exact List.forall_mem_append.2
        ⟨whole.instruments, List.forall_mem_singleton.2 ⟨fresh, fresh.1, loud read⟩⟩
    | change name named kept => exact forall_changeInstrument kept whole.instruments
    | _ => exact whole.instruments
  case ornaments =>
    cases edit with
    | ornament name ranged => exact Table.forall_insert ranged name whole.ornaments
    | _ => exact whole.ornaments
  case sectionNames => cases edit <;> exact whole.sectionNames
  case sections => cases edit <;> exact whole.sections

theorem wellFormed_initial : ({} : Score).WellFormed where
  bpm := by decide
  transposition := by decide
  grid := by decide
  instrumentNames := .nil
  instruments := by simp
  ornaments := by simp
  sectionNames := .nil
  sections := by simp

theorem wellFormed_of_edits (edits : Edits settings c edited)
    (loud : ∀ {velocity}, settings.instrumentVelocity.toInt = .ok velocity → IsData velocity)
    (whole : c.WellFormed) : edited.WellFormed := by
  induction edits with
  | refl => exact whole
  | tail _ edit ih => exact edit.wellFormed loud ih

theorem WellFormed.withSections (whole : c.WellFormed) {musical : List MusicalSection}
    (names : (musical.map (·.name)).Nodup) (sections : ∀ s ∈ musical, s.WellFormed) :
    ({ c with sections := musical } : Score).WellFormed :=
  ⟨whole.bpm, whole.transposition, whole.grid, whole.instrumentNames, whole.instruments, whole.ornaments,
    names, sections⟩

theorem isKept_inRange (ornaments : ∀ entry ∈ c.ornaments, entry.2.InRange) {i : Instrument}
    (loud : IsData i.velocity) : Notation.Bar.IsKept (contextOf c i) Step.InRange where
  made word chord length := by
    refine ⟨?_, ?_, fun ornament played => ?_⟩
    · rw [Notation.stepOf, Step.Draft.finish_length]
      omega
    · rw [Notation.stepOf, Step.Draft.finish_velocity]
      exact loud
    · obtain ⟨name, found⟩ := Notation.stepOf_ornament played
      exact ornaments _ (Table.mem_of_find? (find?_of_contextOf found))
  silent length positive := ⟨positive, loud, by simp⟩
  longer s length positive ranged := by
    refine ⟨?_, ranged.velocity, ranged.ornament⟩
    have := ranged.length
    dsimp only
    omega
  held s ranged := ⟨ranged.length, ranged.velocity, ranged.ornament⟩
  continued s length positive ranged := ⟨positive, ranged.velocity, ranged.ornament⟩

theorem isData_instrumentOf (ranged : ∀ i ∈ c.instruments, i.InRange) {stepVelocity : Int}
    (loud : IsData stepVelocity) (name : Text) : IsData (instrumentOf c stepVelocity name).velocity := by
  unfold instrumentOf
  cases found : c.instrument? name with
  | none => exact loud
  | some i => exact (ranged i (List.mem_of_find?_eq_some found)).2.2

theorem distinct_readMusicLines (c : Score) (stepVelocity : Int) (depth : Nat) (s : Script.Section) :
    ((readMusicLines c stepVelocity depth s).1.measures.map Prod.fst).Nodup :=
  List.foldlRecOn (motive := fun (done : MusicalSection × List Diagnostic) =>
    (done.1.measures.map Prod.fst).Nodup) _ _ .nil fun _ distinct line _ =>
      Table.nodup_insert distinct line.key _

theorem WellFormed.readMusicLines (whole : c.WellFormed) {stepVelocity : Int} (loud : IsData stepVelocity)
    (depth : Nat) (s : Script.Section) : (readMusicLines c stepVelocity depth s).1.WellFormed :=
  .of_allSteps (distinct_readMusicLines c stepVelocity depth s)
    (allSteps_readMusicLines (fun name =>
      isKept_inRange whole.ornaments (isData_instrumentOf whole.instruments loud name)) depth s)

theorem name_readMusicLines (c : Score) (stepVelocity : Int) (depth : Nat) (s : Script.Section) :
    (readMusicLines c stepVelocity depth s).1.name = s.name :=
  List.foldlRecOn (motive := fun (done : MusicalSection × List Diagnostic) => done.1.name = s.name)
    _ _ rfl fun _ named _ _ => named

theorem sectionNames_readPlaylist {sections : List Script.Section} {line : Nat} {names : List Text}
    (read : names.foldlM (readPlaylistItem settings sections line) r = .ok after) :
    after.score.sections.map (·.name) =
      r.score.sections.map (·.name) ++ names.filter fun name => (Script.find? sections name).isSome := by
  induction names generalizing r with
  | nil =>
    cases read
    simp
  | cons name rest ih =>
    rw [List.foldlM_cons] at read
    obtain ⟨next, here, later⟩ := bind_eq_ok.1 read
    rw [ih later]
    rcases readPlaylistItem_cases here with ⟨missing, same⟩ | ⟨s, velocity, depth, found, -, added, -⟩
    · simp [missing, same, Reading.report]
    · have named : s.name = name := of_decide_eq_true (List.find?_some found :)
      simp [found, added, name_readMusicLines, named]

theorem nodup_sectionNames_readMusic {sections : List Script.Section} (empty : r.score.sections = [])
    (read : readMusic settings sections r = .ok after) : (after.score.sections.map (·.name)).Nodup := by
  rw [sectionNames_readPlaylist read, empty, List.map_nil, List.nil_append]
  exact (nodup_eraseDups _).filter _

theorem isKept_inRange_apply (change : ControlChange) : change.IsKept Step.InRange where
  velocity text _ s ranged := by
    refine ⟨ranged.length, ?_, ranged.ornament⟩
    unfold adjustVelocity
    split
    · exact isData_clampData _
    · split <;> exact isData_clampData _
  messages _ _ s ranged := ⟨ranged.length, ranged.velocity, ranged.ornament⟩
  carrier _ _ := ⟨Int.le_refl 1, (by decide : IsData 80), by simp⟩

theorem wellFormed_applyChange (target : ControlTarget) (change : ControlChange) {s : MusicalSection}
    (whole : s.WellFormed) : (applyChange target change s).WellFormed :=
  .of_allSteps (Table.nodup_insert whole.distinct target.instrument _)
    (allSteps_applyChange (isKept_inRange_apply change) target whole.allSteps)

theorem wellFormed_readControlLine {line : Script.Line} (whole : r.score.WellFormed)
    (read : readControlLine r line = .ok after) : after.score.WellFormed := by
  rcases readControlLine_cases read with same | ⟨target, change, -, made⟩
  · rw [same]
    exact whole
  · rw [made]
    refine whole.withSections ?_ ?_
    · rw [map_name_changeSection]
      exact whole.sectionNames
    · exact @forall_changeSection MusicalSection.WellFormed _ _
        (fun _ => wellFormed_applyChange target change) _ whole.sections

theorem wellFormed_readControlLines {lines : List Script.Line} (whole : r.score.WellFormed)
    (read : lines.foldlM readControlLine r = .ok after) : after.score.WellFormed :=
  foldlM_invariant (·.score.WellFormed) wellFormed_readControlLine whole read

theorem wellFormed_readControl {control : Option Script.Section} (whole : r.score.WellFormed)
    (read : readControl r control = .ok after) : after.score.WellFormed := by
  cases control with
  | none =>
    cases read
    exact whole
  | some s => exact wellFormed_readControlLines whole read

theorem wellFormed_ofSections {sections : List Script.Section}
    (loud : ∀ {velocity}, settings.instrumentVelocity.toInt = .ok velocity → IsData velocity)
    (stepLoud : ∀ {velocity}, settings.stepVelocity.toInt = .ok velocity → IsData velocity)
    (read : ofSections settings sections = .ok r) : r.score.WellFormed := by
  rw [ofSections_eq] at read
  obtain ⟨filled, read, control⟩ := bind_eq_ok.1 read
  obtain ⟨composed, before, music⟩ := bind_eq_ok.1 read
  have edits := edits_beforeMusic before
  have whole := wellFormed_of_edits edits loud wellFormed_initial
  have empty := sections_of_edits edits
  have names := nodup_sectionNames_readMusic empty music
  obtain ⟨musical, same, played⟩ := readMusic_sections
    (fun read => whole.readMusicLines (stepLoud read)) (by simp [empty]) music
  refine wellFormed_readControl ?_ control
  rw [same] at names ⊢
  exact whole.withSections names played

theorem WellFormed.restore (whole : c.WellFormed) (earlier : Option Selection) :
    (c.restore earlier).WellFormed := by
  refine ⟨whole.bpm, whole.transposition, whole.grid, ?_, ?_, whole.ornaments, whole.sectionNames,
    whole.sections⟩
  · rw [Score.restore, (Selection.fits_after c earlier).names_apply.1]
    exact whole.instrumentNames
  · exact inRange_instruments_restore whole.instruments earlier

end Score

namespace Compilation

open Fault

theorem stays_wellFormed {settings : Settings} (packaged : Settings.ofPartial .null = .ok settings)
    {earlier : Option Selection} {text : Text} {c : Compilation}
    (compiled : ofText settings earlier text = .ok c) :
    c.score.WellFormed ∧ ∀ (lines : List Script.Line) (reports : List Diagnostic) (after : Score.Reading),
      lines.foldlM Score.readControlLine ⟨c.score, reports⟩ = .ok after → after.score.WellFormed := by
  obtain ⟨r, read, timed⟩ := bind_eq_ok.1 compiled
  obtain ⟨timeline, -, same⟩ := bind_eq_ok.1 timed
  cases same
  have stepLoud : ∀ {velocity}, settings.stepVelocity.toInt = .ok velocity → IsData velocity := by
    intro velocity read
    rw [(Settings.packaged_velocities packaged).2.2] at read
    cases read
    decide
  have whole := Score.wellFormed_ofSections (Settings.isData_packaged packaged) stepLoud read
  have restored := whole.restore earlier
  exact ⟨restored, fun lines reports after changed => Score.wellFormed_readControlLines restored changed⟩

def outOfRange : Text :=
  "[composition]\nplaylist:a,a\nbpm:300\ntime:7/8\ntransposition:-7\n" ++
    "[instruments]\ns:channel=99,octave=-2\ns:velocity=900\n[sounds]\nup:arp(1 2),step=99\n" ++
    "[a]\ns:135\nt:1\n[control]\ns/velocity:-500\nu/cc:volume=900"

def louder : Script.Line := ⟨"s/a/velocity", "+500", 0⟩

theorem outOfRange_wellFormed : ∃ settings c after, Settings.ofPartial .null = .ok settings ∧
    ofText settings none outOfRange = .ok c ∧ c.score.grid = ⟨7, 6⟩ ∧ c.score.WellFormed ∧
    [louder].foldlM Score.readControlLine ⟨c.score, []⟩ = .ok after ∧ after.score ≠ c.score ∧
    after.score.WellFormed := by
  have runs : ((do
      let settings ← Settings.ofPartial .null
      let c ← ofText settings none outOfRange
      let after ← [louder].foldlM Score.readControlLine ⟨c.score, []⟩
      return (c, after) : Except Fault (Compilation × Score.Reading)).toOption.any fun run =>
        run.1.score.grid = ⟨7, 6⟩ ∧ run.2.score ≠ run.1.score) = true := by
    decide +kernel
  obtain ⟨⟨c, after⟩, run, values⟩ := exists_ok_of_any runs
  obtain ⟨settings, packaged, run⟩ := bind_eq_ok.1 run
  obtain ⟨c, compiled, run⟩ := bind_eq_ok.1 run
  obtain ⟨after, changed, same⟩ := bind_eq_ok.1 run
  cases same
  obtain ⟨grid, other⟩ := of_decide_eq_true values
  have whole := stays_wellFormed packaged compiled
  exact ⟨settings, c, after, packaged, compiled, grid, whole.1, changed, other, whole.2 _ _ _ changed⟩

end Compilation

end ScoreScript
