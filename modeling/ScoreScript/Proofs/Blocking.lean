import ScoreScript.Proofs.RawLines
import ScoreScript.Proofs.WellFormed

set_option autoImplicit false

namespace ScoreScript

namespace Diagnostic

def blocking (reports : List Diagnostic) : List Diagnostic := reports.filter isBlocking

@[simp] theorem blocking_append (first second : List Diagnostic) :
    blocking (first ++ second) = blocking first ++ blocking second :=
  List.filter_append first second

theorem blocking_eq_nil {reports : List Diagnostic} :
    blocking reports = [] ↔ ∀ report ∈ reports, report.kind.isBlocking = false := by
  simp [blocking, List.filter_eq_nil_iff, isBlocking]

theorem anyBlocking_eq (reports : List Diagnostic) : anyBlocking reports = !(blocking reports).isEmpty := by
  induction reports with
  | nil => rfl
  | cons report rest ih =>
    cases stops : report.isBlocking <;> simp_all [anyBlocking, blocking]

theorem blocking_foldl {α σ : Type} (view : σ → List Diagnostic) {step : σ → α → σ}
    (kept : ∀ state item, blocking (view (step state item)) = blocking (view state)) (items : List α)
    (state : σ) : blocking (view (items.foldl step state)) = blocking (view state) := by
  induction items generalizing state with
  | nil => rfl
  | cons item rest ih => rw [List.foldl_cons, ih, kept]

end Diagnostic

open Diagnostic

/-! ### Sections of scripts -/

namespace Script

namespace Reading

theorem blocking_close (r : Reading) : blocking r.close.reports = blocking r.reports := by
  have mild : blocking (r.current.toList.flatMap nameReports) = [] := by
    refine blocking_eq_nil.2 fun report member => ?_
    obtain ⟨s, -, made⟩ := List.mem_flatMap.1 member
    unfold nameReports at made
    split at made
    · cases made
    · rw [List.mem_singleton.1 made]
      rfl
  rw [reports_close, blocking_append, mild, List.append_nil]

theorem blocking_enter (r : Reading) (s : Section) (l : Line) :
    blocking (r.enter s l).reports = blocking r.reports := by
  have mild : blocking (if isKey l.key then [] else [⟨.invalidKey, l.key, l.number⟩]) = [] := by
    split <;> rfl
  rw [reports_enter, blocking_append, mild, List.append_nil]

theorem blocking_line (r : Reading) (raw : Text) (number : Nat) :
    blocking (r.line raw number).reports = blocking r.reports := by
  have outside (text : Text) : blocking (r.report .unexpectedTextOutsideSection text number).reports =
      blocking r.reports := by
    rw [report, blocking_append]
    exact List.append_nil _
  unfold line
  dsimp only
  split
  · rfl
  · exact blocking_close r
  · exact blocking_enter ..
  · split
    · exact outside _
    · exact blocking_enter ..
  · exact outside _
  · exact outside _

theorem blocking_lines (r : Reading) (number : Nat) (raws : List Text) :
    blocking (r.lines number raws).reports = blocking r.reports := by
  induction raws generalizing r number with
  | nil => rfl
  | cons raw rest ih => rw [lines, ih, blocking_line]

end Reading

theorem blocking_parse (text : Text) : blocking (parse text).2 = [] := by
  rw [parse, Reading.blocking_close, Reading.blocking_lines]
  rfl

end Script

/-! ### Words -/

namespace Step.Draft

def IsMild (d : Draft) : Prop := ∀ kind ∈ d.error, kind.isBlocking = false

variable {d : Draft}

theorem isMild_fail (mild : d.IsMild) {kind : Diagnostic.Kind} (harmless : kind.isBlocking = false) :
    (d.fail kind).IsMild := by
  intro other wrong
  rcases Option.or_eq_some_iff.1 wrong with old | ⟨-, new⟩
  · exact mild other old
  · cases new
    exact harmless

theorem isMild_mark (mild : d.IsMild) (word : Text) : (d.mark word).IsMild := by
  unfold mark
  dsimp only
  split
  · exact mild
  · exact mild
  · intro kind wrong
    cases wrong
    split <;> rfl
  · exact mild

theorem isMild_markIfError (mild : d.IsMild) (word : Text) : (d.markIfError word).IsMild := by
  unfold markIfError
  split
  · exact isMild_mark mild word
  · exact mild

theorem isMild_addDrum (mild : d.IsMild) (letter : CodePoint) : (d.addDrum letter).IsMild := by
  unfold addDrum
  split
  · exact mild
  · dsimp only
    split
    · exact isMild_fail mild rfl
    · exact mild

theorem isMild_addDegree (mild : d.IsMild) (octave transposition : Int) (degree : Text) :
    (d.addDegree octave transposition degree).IsMild := by
  unfold addDegree
  split
  · exact mild
  · split
    · exact isMild_fail (d := { d with kind := .synth }) mild rfl
    · dsimp only
      split
      · exact mild
      next kind found =>
        refine isMild_fail mild ?_
        unfold rangeError? at found
        dsimp only at found
        split_ifs at found <;> cases found <;> rfl

end Step.Draft

namespace Notation

open Step

variable {ctx : Context} {d : Draft} {chord : Text}

theorem isMild_ofCategory (ctx : Context) (part chord : Text) {kind : Diagnostic.Kind} {text : Text}
    (wrong : Part.ofCategory ctx part chord = .invalid kind text) : kind.isBlocking = false := by
  unfold Part.ofCategory at wrong
  split at wrong
  · cases wrong
  · cases wrong
  · cases wrong
  · cases wrong
  · split at wrong
    next request _ =>
      unfold Part.ofRequest at wrong
      dsimp only at wrong
      split at wrong
      · cases wrong
        rfl
      · split_ifs at wrong <;> cases wrong <;> rfl
    · cases wrong

theorem isMild_resolve (ctx : Context) (part chord : Text) {kind : Diagnostic.Kind} {text : Text}
    (wrong : Part.resolve ctx part chord = .invalid kind text) : kind.isBlocking = false := by
  unfold Part.resolve at wrong
  split at wrong
  · cases wrong
  · split at wrong
    · cases wrong
    · split at wrong
      · cases wrong
      · exact isMild_ofCategory ctx part chord wrong

theorem isMild_addPart (mild : d.IsMild) (part : Part)
    (invalid : ∀ kind text, part = .invalid kind text → kind.isBlocking = false) :
    (addPart ctx d part).IsMild := by
  cases part with
  | literal name pitch =>
    unfold addPart Draft.addLiteral
    dsimp only
    split <;> exact mild
  | sample name => exact mild
  | ornament ornament => exact mild
  | drums letters => exact List.foldlRecOn (motive := Draft.IsMild) _ _ mild fun _ before letter _ =>
      Draft.isMild_addDrum before letter
  | text text isChord =>
    unfold addPart
    dsimp only
    split
    · exact Draft.isMild_fail (d := d.addText text) mild rfl
    · exact mild
  | degrees word =>
    refine Draft.isMild_markIfError ?_ word
    exact List.foldlRecOn (motive := Draft.IsMild) _ _ mild fun _ before degree _ =>
      Draft.isMild_addDegree before ctx.octave ctx.transposition degree
  | invalid kind text => exact Draft.isMild_mark (Draft.isMild_fail mild (invalid kind text rfl)) text

theorem isMild_draftOf (ctx : Context) (chord word : Text) : (draftOf ctx chord word).IsMild := by
  refine Draft.isMild_markIfError ?_ word
  refine List.foldlRecOn (motive := Draft.IsMild) _ _ (fun kind wrong => by cases wrong) ?_
  intro d mild part _
  unfold addPartText
  split
  · exact Draft.isMild_fail mild rfl
  · exact isMild_addPart mild _ fun kind text => isMild_resolve ctx part chord

theorem blocking_reportOf (word : Text) (length line : Int) :
    blocking (Bar.reportOf (stepOf ctx word length chord) line) = [] := by
  unfold Bar.reportOf
  split
  · rfl
  next kind wrong =>
    rw [stepOf, Draft.finish_error] at wrong
    exact blocking_eq_nil.2 (List.forall_mem_singleton.2 (isMild_draftOf _ _ _ kind wrong))

/-! ### Lines of music -/

theorem blocking_addWord (ctx : Context) (chordAt : Nat → Int → Text) (line base : Int) (b : Bar) (word : Text) :
    blocking (b.addWord ctx chordAt line base word).reports = blocking b.reports := by
  unfold Bar.addWord
  dsimp only
  split
  · rfl
  · rfl
  · unfold Bar.addTie
    dsimp only
    split_ifs
    · rfl
    · split <;> rfl
  · rw [Bar.addStep, blocking_append, blocking_reportOf, List.append_nil]

theorem blocking_addLine (chordAt : Nat → Int → Text) (line : Int) (measures : List Measure)
    (phrases : List Text) : blocking (addLine ctx chordAt line measures phrases).2 = [] := by
  refine blocking_foldl (fun done : List Measure × List Diagnostic => done.2) (fun done phrase => ?_)
    phrases (measures, [])
  unfold addPhrase
  split
  · rfl
  · have bar := blocking_foldl Bar.reports
      (blocking_addWord ctx chordAt line (unitLength (Text.words phrase) ctx.budget))
      (Text.words phrase) { earlier := done.1 }
    rw [blocking_append, barOf, bar]
    exact List.append_nil _

end Notation

namespace Phrase

theorem blocking_repeatFrom (measures line : Int) (done phrases : List Text) :
    blocking (repeatFrom measures line done phrases).2 = [] := by
  fun_induction repeatFrom measures line done phrases with
  | case1 => rfl
  | case2 done phrase rest previous ih => exact ih
  | case3 phrase rest previous cycle phrases reports same ih =>
    rw [same] at ih
    exact ih
  | case4 done phrase rest previous cycle begun missing ih => exact ih
  | case5 done phrase rest previous cycle ih => exact ih

theorem blocking_expandSequences (sequences : Table Text) (depth : Nat) (line : Int) (phrases : List Text) :
    blocking (expandSequences sequences depth line phrases).2 = [] := by
  unfold expandSequences
  dsimp only
  split <;> rfl

theorem blocking_ofLine (sequences : Table Text) (measures : Int) (depth : Nat) (line : Int) (t : Text) :
    blocking (ofLine sequences measures depth line t).2 = [] := by
  simp only [ofLine, expandRepetitions, blocking_append, blocking_expandSequences, blocking_repeatFrom,
    List.append_nil]

end Phrase

/-! ### Stages -/

namespace Score

open Fault

variable {settings : Settings} {r after : Reading}

@[simp] theorem blocking_report (r : Reading) (kind : Diagnostic.Kind) (info : Text) (line : Nat) :
    blocking (r.report kind info line).reports =
      blocking r.reports ++ if kind.isBlocking then [⟨kind, info, line⟩] else [] := by
  rw [Reading.report, blocking_append]
  cases kind <;> rfl

@[simp] theorem blocking_update (r : Reading) (change : Score → Score) :
    blocking (r.update change).reports = blocking r.reports :=
  rfl

theorem blocking_foldlM {α : Type} {step : Reading → α → Except Fault Reading}
    {added : α → List Diagnostic} (keeps : Reading → Prop)
    (adds : ∀ {r item after}, keeps r → step r item = .ok after →
      keeps after ∧ blocking after.reports = blocking r.reports ++ added item)
    {items : List α} (start : keeps r) (read : items.foldlM step r = .ok after) :
    blocking after.reports = blocking r.reports ++ items.flatMap added := by
  induction items generalizing r with
  | nil =>
    cases read
    simp
  | cons item rest ih =>
    rw [List.foldlM_cons] at read
    obtain ⟨next, here, later⟩ := bind_eq_ok.1 read
    obtain ⟨kept, more⟩ := adds start here
    rw [ih kept later, more, List.flatMap_cons, List.append_assoc]

theorem blocking_foldlM_of_mild {α : Type} {step : Reading → α → Except Fault Reading}
    (mild : ∀ {r item after}, step r item = .ok after → blocking after.reports = blocking r.reports)
    {items : List α} (read : items.foldlM step r = .ok after) :
    blocking after.reports = blocking r.reports :=
  foldlM_invariant (fun (now : Reading) => blocking now.reports = blocking r.reports)
    (fun kept here => (mild here).trans kept) rfl read

theorem blocking_readHeaderLine {line : Script.Line} (read : readHeaderLine r line = .ok after) :
    blocking after.reports = blocking r.reports := by
  unfold readHeaderLine at read
  dsimp only at read
  split_ifs at read
  · cases read; rfl
  · split at read <;> cases read <;> simp [Diagnostic.Kind.isBlocking]
  · split at read <;> cases read <;> simp [Diagnostic.Kind.isBlocking]
  · split at read <;> cases read <;> simp [Diagnostic.Kind.isBlocking]
  · cases read; rfl
  · cases read; rfl
  · obtain ⟨names, -, entered⟩ := bind_eq_ok.1 read
    cases entered
    split_ifs <;> simp [Diagnostic.Kind.isBlocking]
  · cases read; rfl
  · cases read; simp [Diagnostic.Kind.isBlocking]

def missing (name : Text) (s : Option Script.Section) : List Diagnostic :=
  if s.isSome then [] else [⟨.missingSection, name, 0⟩]

theorem blocking_readHeader {s : Option Script.Section} (read : readHeader r s = .ok after) :
    blocking after.reports = blocking r.reports ++ missing compositionName s := by
  cases s with
  | none =>
    cases read
    exact blocking_report ..
  | some s =>
    have mild := blocking_foldlM_of_mild blocking_readHeaderLine read
    exact mild.trans (List.append_nil _).symm

theorem blocking_readInstrumentItem (name : Text) (line : Nat) (r : Reading) (item : Text) :
    blocking (readInstrumentItem name line r item).reports = blocking r.reports := by
  unfold readInstrumentItem
  dsimp only
  split <;> simp [Diagnostic.Kind.isBlocking]

theorem blocking_readInstrumentLine {line : Script.Line} (read : readInstrumentLine settings r line = .ok after) :
    blocking after.reports = blocking r.reports := by
  obtain ⟨declared, entered, items⟩ := bind_eq_ok.1 read
  cases items
  rw [blocking_foldl Reading.reports (blocking_readInstrumentItem line.key line.number)]
  rcases declareInstrument_cases entered with same | ⟨velocity, -, -, same⟩ <;> rw [same]
  rfl

theorem blocking_readInstruments {s : Option Script.Section} (read : readInstruments settings r s = .ok after) :
    blocking after.reports = blocking r.reports ++ missing instrumentsName s := by
  cases s with
  | none =>
    cases read
    exact blocking_report ..
  | some s =>
    have mild := blocking_foldlM_of_mild blocking_readInstrumentLine read
    exact mild.trans (List.append_nil _).symm

theorem blocking_addSoundItem (line : Nat) (s : SoundItems) (item : Text) :
    blocking (SoundItems.add line s item).reports = blocking s.reports := by
  unfold SoundItems.add
  dsimp only
  split
  · rfl
  · split
    · split
      · rfl
      · rw [blocking_append]
        exact List.append_nil _
    · rw [blocking_append]
      exact List.append_nil _

theorem blocking_defineSound {line : Script.Line} {s : SoundItems} {function : Text} {arguments : List Text}
    (read : defineSound r line s function arguments = .ok after) :
    blocking after.reports = blocking r.reports := by
  rcases defineSound_cases read with ⟨samples, literals, same⟩ | ⟨ornament, -, same⟩ | same <;> rw [same]
  · rfl
  · rfl
  · simp [Diagnostic.Kind.isBlocking]

theorem blocking_readSoundLine {line : Script.Line} (read : readSoundLine settings r line = .ok after) :
    blocking after.reports = blocking r.reports := by
  have items := blocking_foldl SoundItems.reports (blocking_addSoundItem line.number)
    (Text.splitOutsideParens ',' line.value) { modifiers := settings.sound }
  have start : blocking (r.reports ++ ((Text.splitOutsideParens ',' line.value).foldl
      (SoundItems.add line.number) { modifiers := settings.sound }).reports) = blocking r.reports := by
    rw [blocking_append, items]
    exact List.append_nil _
  unfold readSoundLine at read
  dsimp only at read
  split at read
  · exact (blocking_defineSound read).trans start
  · cases read
    rw [blocking_report]
    exact (List.append_nil _).trans start

theorem blocking_readSounds {s : Option Script.Section} (read : readSounds settings r s = .ok after) :
    blocking after.reports = blocking r.reports := by
  cases s with
  | none =>
    cases read
    rfl
  | some s => exact blocking_foldlM_of_mild blocking_readSoundLine read

theorem blocking_beforeMusic {sections : List Script.Section} (read : beforeMusic settings sections = .ok r) :
    blocking r.reports = missing compositionName (Script.find? sections compositionName) ++
      missing instrumentsName (Script.find? sections instrumentsName) := by
  obtain ⟨titled, header, read⟩ := bind_eq_ok.1 read
  obtain ⟨manned, instruments, sounds⟩ := bind_eq_ok.1 read
  have sequences (s : Option Script.Section) :
      blocking (readSequences manned s).reports = blocking manned.reports := by
    cases s <;> rfl
  rw [blocking_readSounds sounds, sequences, blocking_readInstruments instruments, blocking_readHeader header]
  rfl

/-! ### Music -/

theorem blocking_readMusicLines (c : Score) (stepVelocity : Int) (depth : Nat) (s : Script.Section) :
    blocking (readMusicLines c stepVelocity depth s).2 = [] := by
  refine blocking_foldl (fun done : MusicalSection × List Diagnostic => done.2) (fun done line => ?_)
    _ _
  simp only [readMusicLine, blocking_append, Phrase.blocking_ofLine, Notation.blocking_addLine, List.append_nil]

def playlistLine (sections : List Script.Section) : Nat :=
  ((Script.find? sections compositionName).map (·.numberOf "playlist")).getD 0

def unplayed (sections : List Script.Section) (name : Text) : List Diagnostic :=
  if (Script.find? sections name).isSome then []
  else [⟨.undefinedSection, name, playlistLine sections⟩]

theorem blocking_readMusic {sections : List Script.Section} (read : readMusic settings sections r = .ok after) :
    blocking after.reports = blocking r.reports ++ (playedNames r.score).flatMap (unplayed sections) := by
  refine blocking_foldlM (fun _ => True) (fun _ here => ⟨trivial, ?_⟩) trivial read
  rename_i now name next
  unfold unplayed
  rcases readPlaylistItem_cases here with ⟨absent, same⟩ | ⟨s, velocity, depth, found, -, -, added⟩
  · rw [absent, same]
    exact blocking_report ..
  · rw [found, added, blocking_append, blocking_readMusicLines]
    rfl

/-! ### Control lines -/

def misaddressed (c : Score) (line : Script.Line) : List Diagnostic :=
  match ControlTarget.ofPath? line.path with
  | none => []
  | some target =>
    if (c.section? (target.sectionIn c)).isSome then []
    else [⟨.undefinedSection, target.sectionIn c, line.number⟩]

theorem misaddressed_congr {c c' : Score} (names : c'.sections.map (·.name) = c.sections.map (·.name)) :
    c'.misaddressed = c.misaddressed := by
  funext line
  simp only [misaddressed, isSome_section?, ControlTarget.sectionIn_eq, names]

theorem blocking_controlChange {controllers : Table Int} {line : Nat} {message value : Text}
    {change : Option ControlChange} {reports : List Diagnostic}
    (read : ControlChange.read controllers line message value = .ok (change, reports)) :
    blocking reports = [] := by
  unfold ControlChange.read at read
  split_ifs at read
  · cases read
    rfl
  · split at read <;> cases read <;> rfl
  · obtain ⟨values, -, same⟩ := bind_eq_ok.1 read
    cases same
    have unknown : blocking (controllerMessages controllers line values).2 = [] := by
      refine blocking_eq_nil.2 fun report member => ?_
      obtain ⟨entry, -, made⟩ := List.mem_filterMap.1 member
      split at made <;> cases made
      rfl
    have empty : blocking (if values = [] then [⟨.ccSyntaxError, value, line⟩] else []) = [] := by
      split <;> rfl
    rw [blocking_append, empty]
    exact unknown
  · cases read
    rfl

theorem readControlLine_adds {line : Script.Line} (read : readControlLine r line = .ok after) :
    after.score.sections.map (·.name) = r.score.sections.map (·.name) ∧
      blocking after.reports = blocking r.reports ++ r.score.misaddressed line := by
  constructor
  · rcases readControlLine_cases read with same | ⟨target, change, -, made⟩
    · rw [same]
    · rw [made]
      exact map_name_changeSection _ target change _
  · unfold readControlLine at read
    unfold misaddressed
    cases addressed : ControlTarget.ofPath? line.path with
    | none =>
      rw [addressed] at read
      cases read
      exact blocking_report ..
    | some target =>
      rw [addressed] at read
      dsimp only at read ⊢
      cases found : r.score.section? (target.sectionIn r.score) with
      | none =>
        rw [found] at read
        cases read
        exact blocking_report ..
      | some s =>
        rw [found] at read
        obtain ⟨⟨change, reports⟩, asked, changed⟩ := bind_eq_ok.1 read
        have mild : blocking (r.reports ++ reports) = blocking r.reports := by
          rw [blocking_append, blocking_controlChange asked, List.append_nil]
        cases change <;>
        · cases changed
          exact mild.trans (List.append_nil _).symm

theorem readControl_adds {control : Option Script.Section} (read : readControl r control = .ok after) :
    after.score.sections.map (·.name) = r.score.sections.map (·.name) ∧
      blocking after.reports = blocking r.reports ++
        ((control.map Script.Section.lines).getD []).flatMap r.score.misaddressed := by
  cases control with
  | none =>
    cases read
    exact ⟨rfl, (List.append_nil _).symm⟩
  | some s =>
    have names := foldlM_invariant
      (fun (now : Reading) => now.score.sections.map (·.name) = r.score.sections.map (·.name))
      (fun kept here => (readControlLine_adds here).1.trans kept) rfl read
    refine ⟨names, blocking_foldlM
      (fun (now : Reading) => now.score.sections.map (·.name) = r.score.sections.map (·.name))
      (fun kept here => ?_) rfl read⟩
    obtain ⟨same, more⟩ := readControlLine_adds here
    exact ⟨same.trans kept, by rw [more, misaddressed_congr kept]⟩

/-! ### Scripts -/

def structureReports (sections : List Script.Section) (c : Score) : List Diagnostic :=
  missing compositionName (Script.find? sections compositionName) ++
    missing instrumentsName (Script.find? sections instrumentsName) ++
    (playedNames c).flatMap (unplayed sections) ++ (controlLines sections).flatMap c.misaddressed

def IsAddressed (c : Score) (path : List Text) : Prop :=
  if 3 ≤ path.length then ∃ s ∈ c.sections, path[1]? = some s.name else c.sections ≠ []

structure IsComplete (sections : List Script.Section) (c : Score) : Prop where
  composition : ∃ s ∈ sections, s.name = compositionName
  instruments : ∃ s ∈ sections, s.name = instrumentsName
  playlist : ∀ item ∈ c.playlist, ∃ s ∈ sections, s.name = item.name
  control : ∀ line ∈ controlLines sections, 2 ≤ line.path.length → c.IsAddressed line.path

theorem blocking_ofSections {sections : List Script.Section} (read : ofSections settings sections = .ok r) :
    blocking r.reports = structureReports sections r.score ∧
      r.score.sections.map (·.name) =
        (playedNames r.score).filter fun name => (Script.find? sections name).isSome := by
  rw [ofSections_eq] at read
  obtain ⟨filled, read, control⟩ := bind_eq_ok.1 read
  obtain ⟨composed, before, music⟩ := bind_eq_ok.1 read
  obtain ⟨names, last⟩ := readControl_adds control
  obtain ⟨first, filledSame, -⟩ := readMusic_sections (fun _ _ _ => trivial) (fun _ _ => trivial) music
  obtain ⟨musical, same, -⟩ := readControl_sections (fun _ _ _ _ _ _ _ => trivial) (fun _ _ => trivial) control
  have played : playedNames r.score = playedNames composed.score := by rw [same, filledSame]; rfl
  constructor
  · rw [last, blocking_readMusic music, blocking_beforeMusic before, structureReports, played,
      misaddressed_congr names]
    rfl
  · rw [names, sectionNames_readPlaylist music, sections_of_edits (edits_beforeMusic before), played]
    rfl

theorem isSome_find? (sections : List Script.Section) (name : Text) :
    (Script.find? sections name).isSome = true ↔ ∃ s ∈ sections, s.name = name := by
  simp [Script.find?, List.find?_isSome]

theorem missing_eq_nil {sections : List Script.Section} {name : Text} :
    missing name (Script.find? sections name) = [] ↔ ∃ s ∈ sections, s.name = name := by
  rw [← isSome_find?, missing]
  split <;> simp_all

theorem unplayed_eq_nil {sections : List Script.Section} {name : Text} :
    unplayed sections name = [] ↔ ∃ s ∈ sections, s.name = name := by
  rw [← isSome_find?, unplayed]
  split <;> simp_all

theorem misaddressed_eq_nil {c : Score} {line : Script.Line} :
    c.misaddressed line = [] ↔ (2 ≤ line.path.length → c.IsAddressed line.path) := by
  have named (name : Text) : (if (c.section? name).isSome then []
      else [(⟨.undefinedSection, name, line.number⟩ : Diagnostic)]) = [] ↔ ∃ s ∈ c.sections, s.name = name := by
    rw [← List.mem_map, ← isSome_section?]
    split <;> simp_all
  unfold misaddressed IsAddressed
  rcases line.path with _ | ⟨instrument, _ | ⟨second, _ | ⟨third, rest⟩⟩⟩
  · simp [ControlTarget.ofPath?]
  · simp [ControlTarget.ofPath?]
  · -- without a section in its path the line means the first one
    refine (named ((c.sections.head?.map (·.name)).getD [])).trans ?_
    cases c.sections <;> simp
  · refine (named second).trans ?_
    simp [eq_comm]

theorem structureReports_eq_nil {sections : List Script.Section} {c : Score} :
    structureReports sections c = [] ↔ c.IsComplete sections := by
  have played : (playedNames c).flatMap (unplayed sections) = [] ↔
      ∀ item ∈ c.playlist, ∃ s ∈ sections, s.name = item.name := by
    rw [List.flatMap_eq_nil_iff]
    simp [playedNames, List.mem_eraseDups, unplayed_eq_nil]
  have controlled : (controlLines sections).flatMap c.misaddressed = [] ↔
      ∀ line ∈ controlLines sections, 2 ≤ line.path.length → c.IsAddressed line.path := by
    simp only [List.flatMap_eq_nil_iff, misaddressed_eq_nil]
  rw [structureReports, List.append_eq_nil_iff, List.append_eq_nil_iff, List.append_eq_nil_iff,
    missing_eq_nil, missing_eq_nil, played, controlled]
  exact ⟨fun ⟨⟨⟨composition, instruments⟩, playlist⟩, control⟩ => ⟨composition, instruments, playlist, control⟩,
    fun whole => ⟨⟨⟨whole.composition, whole.instruments⟩, whole.playlist⟩, whole.control⟩⟩

end Score

namespace Compilation

open Fault Score

/-- What blocks a compiled script is what its structure lacks, so it can be played just if it is complete. -/
theorem blocked_by_structure {settings : Settings} {earlier : Option Selection} {text : Text} {c : Compilation}
    (compiled : ofText settings earlier text = .ok c) :
    blocking c.reports = structureReports (Script.parse text).1 c.score ∧
      (c.isPlayable = true ↔ c.score.IsComplete (Script.parse text).1) ∧
      c.score.sections.map (·.name) =
        (playedNames c.score).filter fun name => (Script.find? (Script.parse text).1 name).isSome := by
  rw [ofText_eq] at compiled
  obtain ⟨r, read, timed⟩ := bind_eq_ok.1 compiled
  obtain ⟨timeline, -, same⟩ := bind_eq_ok.1 timed
  cases same
  obtain ⟨blocked, loaded⟩ := blocking_ofSections read
  have played : playedNames (r.score.restore earlier) = playedNames r.score := by
    rw [playedNames, Score.restore, (Selection.fits_after r.score earlier).names_apply.2, playedNames]
  have whole : blocking ((Script.parse text).2 ++ r.reports) =
      structureReports (Script.parse text).1 (r.score.restore earlier) := by
    rw [blocking_append, Script.blocking_parse, blocked, structureReports, structureReports, played]
    rfl
  refine ⟨whole, ?_, by rw [played]; exact loaded⟩
  rw [isPlayable, anyBlocking_eq, whole, ← structureReports_eq_nil]
  simp

def muddle : Text :=
  "[composition]\nplaylist:a\nbpm:fast\n[instruments]\ns:octave=3,x=2\n[a]\ns:1 9 chord(0)\n" ++
    "[control]\ns:1\ns/volume:1"

def gaps : Text := "[composition]\nplaylist:a,b,b\n[a]\ns:1\n[control]\ns/c/velocity:1"

theorem muddle_plays : ∃ c d, ofText bareSettings none muddle = .ok c ∧ c.reports.length = 7 ∧
    c.score.IsComplete (Script.parse muddle).1 ∧ c.isPlayable = true ∧
    ofText bareSettings none gaps = .ok d ∧ ¬d.score.IsComplete (Script.parse gaps).1 ∧
    structureReports (Script.parse gaps).1 d.score =
      [⟨.missingSection, "instruments", 0⟩, ⟨.undefinedSection, "b", 2⟩, ⟨.undefinedSection, "c", 6⟩] := by
  have plays : ((ofText bareSettings none muddle).toOption.any fun c =>
      c.reports.length = 7 ∧ c.isPlayable = true) = true := by decide +kernel
  have stops : ((ofText bareSettings none gaps).toOption.any fun c => blocking c.reports =
      [⟨.missingSection, "instruments", 0⟩, ⟨.undefinedSection, "b", 2⟩, ⟨.undefinedSection, "c", 6⟩]) =
        true := by
    decide +kernel
  obtain ⟨c, compiled, seen⟩ := exists_ok_of_any plays
  obtain ⟨d, compiled', blocked⟩ := exists_ok_of_any stops
  obtain ⟨count, playable⟩ := of_decide_eq_true seen
  have lacks := (blocked_by_structure compiled').1.symm.trans (of_decide_eq_true blocked)
  refine ⟨c, d, compiled, count, (blocked_by_structure compiled).2.1.1 playable, playable, compiled', ?_, lacks⟩
  intro whole
  rw [structureReports_eq_nil.2 whole] at lacks
  cases lacks

end Compilation

end ScoreScript
