import Mathlib.Tactic.SplitIfs
import ScoreScript.Score.Script

set_option autoImplicit false

namespace ScoreScript

def Diagnostic.renumber (f : Nat → Nat) (d : Diagnostic) : Diagnostic :=
  match d.line with
  | .ofNat n => { d with line := f n }
  | .negSucc _ => d

@[simp]
theorem Diagnostic.renumber_mk (f : Nat → Nat) (kind : Kind) (info : Text) (n : Nat) :
    Diagnostic.renumber f ⟨kind, info, n⟩ = ⟨kind, info, f n⟩ := rfl

namespace Script

def Line.renumber (f : Nat → Nat) (line : Line) : Line := { line with number := f line.number }

def Section.renumber (f : Nat → Nat) (s : Section) : Section :=
  { s with number := f s.number, lines := s.lines.map (Line.renumber f) }

variable (f : Nat → Nat)

theorem find?_map_renumber (sections : List Section) (name : Text) :
    find? (sections.map (Section.renumber f)) name = (find? sections name).map (Section.renumber f) := by
  rw [find?, List.find?_map]
  rfl

theorem Section.moveFirst_renumber (s : Section) (key : Text) :
    (s.renumber f).moveFirst key = (s.moveFirst key).renumber f := by
  simp only [moveFirst, renumber, List.map_append, List.filter_map]
  rfl

theorem Section.numberOf_renumber (zero : f 0 = 0) (s : Section) (key : Text) :
    (s.renumber f).numberOf key = f (s.numberOf key) := by
  rw [numberOf, renumber, List.find?_map, numberOf]
  change (((s.lines.find? (·.key = key)).map (Line.renumber f)).map Line.number).getD 0 = _
  cases s.lines.find? (·.key = key) with
  | none => exact zero.symm
  | some line => rfl

end Script

section Views

variable {α α' β β' ε : Type}

theorem bind_map_view {view : α → α'} {view' : β → β'} {next : α → Except ε β}
    {next' : α' → Except ε β'} (later : ∀ a, next' (view a) = (next a).map view') (outcome : Except ε α) :
    outcome.map view >>= next' = (outcome >>= next).map view' := by
  cases outcome with
  | error fault => rfl
  | ok a => exact later a

theorem bind_same_view {view : β → β'} {next : α → Except ε β} {next' : α → Except ε β'}
    (later : ∀ a, next' a = (next a).map view) (outcome : Except ε α) :
    outcome >>= next' = (outcome >>= next).map view := by
  cases outcome with
  | error fault => rfl
  | ok a => exact later a

variable {view : β → β} {again : α → α'} (items : List α) (b : β)

theorem foldl_map_view {step : β → α → β} {step' : β → α' → β}
    (steps : ∀ b a, step' (view b) (again a) = view (step b a)) :
    (items.map again).foldl step' (view b) = view (items.foldl step b) := by
  rw [List.foldl_map]
  exact List.foldl_hom view steps

theorem foldlM_map_view {step : β → α → Except ε β} {step' : β → α' → Except ε β}
    (steps : ∀ b a, step' (view b) (again a) = (step b a).map view) :
    (items.map again).foldlM step' (view b) = (items.foldlM step b).map view := by
  induction items generalizing b with
  | nil => rfl
  | cons a rest ih =>
    rw [List.map_cons, List.foldlM_cons, List.foldlM_cons, steps]
    exact bind_map_view ih (step b a)

end Views

namespace Phrase

variable (f : Nat → Nat) (n : Nat)

theorem repeatFrom_renumber (count : Int) (done phrases : List Text) :
    repeatFrom count (f n) done phrases =
      (repeatFrom count n done phrases).map id (List.map (Diagnostic.renumber f)) := by
  induction phrases generalizing done with
  | nil => rfl
  | cons phrase rest ih =>
    unfold repeatFrom
    split_ifs
    · exact ih _
    · rw [ih]
      rfl
    · exact ih _
    · exact ih _

theorem expandSequences_renumber (sequences : Table Text) (depth : Nat) (phrases : List Text) :
    expandSequences sequences depth (f n) phrases =
      (expandSequences sequences depth n phrases).map id (List.map (Diagnostic.renumber f)) := by
  unfold expandSequences
  dsimp only
  split <;> rfl

theorem ofLine_renumber (sequences : Table Text) (count : Int) (depth : Nat) (t : Text) :
    ofLine sequences count depth (f n) t =
      (ofLine sequences count depth n t).map id (List.map (Diagnostic.renumber f)) := by
  simp only [ofLine, expandRepetitions, expandSequences_renumber f n, repeatFrom_renumber f n, Prod.map,
    List.map_append, id]

end Phrase

namespace Notation

variable (f : Nat → Nat) (n : Nat) (ctx : Context) (chordAt : Nat → Int → Text)

def Bar.renumber (b : Bar) : Bar := { b with reports := b.reports.map (Diagnostic.renumber f) }

theorem Bar.reportOf_renumber (step : Step) :
    reportOf step (f n) = (reportOf step n).map (Diagnostic.renumber f) := by
  unfold reportOf
  split <;> rfl

theorem Bar.addTie_renumber (b : Bar) (velocity length : Int) :
    (b.renumber f).addTie velocity length = (b.addTie velocity length).renumber f := by
  obtain ⟨earlier, steps, unit, position, reports⟩ := b
  cases steps with
  | cons step rest => rfl
  | nil =>
    unfold addTie renumber
    dsimp only
    cases heldStep? earlier <;> rfl

theorem Bar.addWord_renumber (base : Int) (b : Bar) (word : Text) :
    (b.renumber f).addWord ctx chordAt (f n) base word = (b.addWord ctx chordAt n base word).renumber f := by
  unfold addWord
  dsimp only
  cases Mark.ofWord word with
  | bracket factor => rfl
  | brace => rfl
  | tie => exact addTie_renumber f b _ _
  | step =>
    simp only [addStep, renumber, reportOf_renumber f n, List.map_append]

theorem barOf_renumber (earlier : List Measure) (words : List Text) :
    barOf ctx chordAt (f n) earlier words = (barOf ctx chordAt n earlier words).renumber f := by
  rw [barOf, barOf, ← List.foldl_hom (Bar.renumber f) (Bar.addWord_renumber f n ctx chordAt _)]
  rfl

theorem addPhrase_renumber (done : List Measure × List Diagnostic) (phrase : Text) :
    addPhrase ctx chordAt (f n) (done.map id (List.map (Diagnostic.renumber f))) phrase =
      (addPhrase ctx chordAt n done phrase).map id (List.map (Diagnostic.renumber f)) := by
  unfold addPhrase
  split
  · rfl
  · simp only [barOf_renumber f n, Bar.renumber, Bar.measures, Prod.map, List.map_append, id]

theorem addLine_renumber (measures : List Measure) (phrases : List Text) :
    addLine ctx chordAt (f n) measures phrases =
      (addLine ctx chordAt n measures phrases).map id (List.map (Diagnostic.renumber f)) := by
  rw [addLine, addLine, ← List.foldl_hom (Prod.map id _) (addPhrase_renumber f n ctx chordAt)]
  rfl

end Notation

namespace Score

open Script

variable (f : Nat → Nat) {settings : Settings} (r : Reading) (line : Line)

def Reading.renumber (r : Reading) : Reading := { r with reports := r.reports.map (Diagnostic.renumber f) }

@[simp]
theorem Reading.score_renumber : (r.renumber f).score = r.score := rfl

theorem Reading.report_renumber (kind : Diagnostic.Kind) (info : Text) (n : Nat) :
    (r.renumber f).report kind info (f n) = (r.report kind info n).renumber f := by
  simp only [report, renumber, List.map_append]
  rfl

theorem readHeaderLine_renumber :
    readHeaderLine (r.renumber f) (line.renumber f) = (readHeaderLine r line).map (Reading.renumber f) := by
  unfold readHeaderLine
  dsimp only [Line.renumber]
  split_ifs
  · rfl
  · cases numberIn? 0 255 (Text.trim line.value) with
    | none => exact congrArg Except.ok (r.report_renumber f _ _ _)
    | some bpm => rfl
  · cases Grid.ofSignature? (Text.trim line.value) with
    | none => exact congrArg Except.ok (congrArg (Reading.update · _) (r.report_renumber f _ _ _))
    | some grid => rfl
  · cases numberIn? (-7) 7 (Text.trim line.value) with
    | none => exact congrArg Except.ok (r.report_renumber f _ _ _)
    | some transposition => rfl
  · rfl
  · rfl
  · refine bind_same_view (fun names => congrArg Except.ok ?_) _
    split_ifs
    · exact congrArg (Reading.update · _) (r.report_renumber f _ _ _)
    · rfl
  · rfl
  · exact congrArg Except.ok (r.report_renumber f _ _ _)

theorem readHeader_renumber (zero : f 0 = 0) (s : Option Section) :
    readHeader (r.renumber f) (s.map (Section.renumber f)) = (readHeader r s).map (Reading.renumber f) := by
  cases s with
  | none =>
    have reported := r.report_renumber f .missingSection compositionName 0
    rw [zero] at reported
    exact congrArg Except.ok reported
  | some s => exact foldlM_map_view s.lines r (readHeaderLine_renumber f)

theorem readInstrumentItem_renumber (name : Text) (n : Nat) (item : Text) :
    readInstrumentItem name (f n) (r.renumber f) item = (readInstrumentItem name n r item).renumber f := by
  unfold readInstrumentItem
  dsimp only
  cases InstrumentItem.ofText item with
  | unknown key => exact r.report_renumber f _ _ _
  | invalid => exact r.report_renumber f _ _ _
  | _ => rfl

theorem declareInstrument_renumber (name : Text) :
    declareInstrument settings (r.renumber f) name =
      (declareInstrument settings r name).map (Reading.renumber f) := by
  unfold declareInstrument
  dsimp only [Reading.renumber]
  cases r.score.instrument? name with
  | some i => rfl
  | none =>
    refine bind_same_view (fun velocity => ?_) _
    rfl

theorem readInstrumentLine_renumber :
    readInstrumentLine settings (r.renumber f) (line.renumber f) =
      (readInstrumentLine settings r line).map (Reading.renumber f) := by
  simp only [readInstrumentLine, Line.renumber, Line.items]
  rw [declareInstrument_renumber]
  refine bind_map_view (fun declared => congrArg Except.ok ?_) _
  exact List.foldl_hom (Reading.renumber f) fun r item => readInstrumentItem_renumber f r _ _ item

theorem readInstruments_renumber (zero : f 0 = 0) (s : Option Section) :
    readInstruments settings (r.renumber f) (s.map (Section.renumber f)) =
      (readInstruments settings r s).map (Reading.renumber f) := by
  cases s with
  | none =>
    have reported := r.report_renumber f .missingSection instrumentsName 0
    rw [zero] at reported
    exact congrArg Except.ok reported
  | some s => exact foldlM_map_view s.lines r (readInstrumentLine_renumber f)

theorem readSequences_renumber (s : Option Section) :
    readSequences (r.renumber f) (s.map (Section.renumber f)) = (readSequences r s).renumber f := by
  cases s with
  | none => rfl
  | some s =>
    simp only [Option.map, readSequences, Section.renumber, List.foldl_map]
    rfl

def SoundItems.renumber (s : SoundItems) : SoundItems :=
  { s with reports := s.reports.map (Diagnostic.renumber f) }

theorem SoundItems.add_renumber (n : Nat) (s : SoundItems) (item : Text) :
    (s.renumber f).add (f n) item = (s.add n item).renumber f := by
  by_cases call : .char '(' ∈ item ∧ .char ')' ∈ item
  · simp [add, call, renumber]
  · simp only [add, call, renumber, if_false]
    split
    next key value fields =>
      by_cases known : s.modifiers.contains (Text.trim key) = true <;> simp [known]
    next => simp

@[simp]
theorem SoundItems.modifier_renumber (s : SoundItems) (name : String) :
    (s.renumber f).modifier name = s.modifier name := rfl

@[simp]
theorem SoundItems.modifierIn_renumber (s : SoundItems) (low high : Int) (name : String) :
    (s.renumber f).modifierIn low high name = s.modifierIn low high name := rfl

theorem defineSound_renumber (s : SoundItems) (function : Text) (arguments : List Text) :
    defineSound (r.renumber f) (line.renumber f) (s.renumber f) function arguments =
      (defineSound r line s function arguments).map (Reading.renumber f) := by
  unfold defineSound
  simp only [Line.renumber, SoundItems.modifier_renumber, SoundItems.modifierIn_renumber]
  split_ifs
  · refine bind_same_view (fun volume => ?_) _
    rfl
  · rfl
  · refine bind_same_view (fun spacing => bind_same_view (fun duration => ?_) _) _
    rfl
  · refine bind_same_view (fun delay => bind_same_view (fun decay => ?_) _) _
    rfl
  · exact congrArg Except.ok (r.report_renumber f _ _ _)

theorem readSoundLine_renumber :
    readSoundLine settings (r.renumber f) (line.renumber f) =
      (readSoundLine settings r line).map (Reading.renumber f) := by
  have items : (Text.splitOutsideParens ',' line.value).foldl (SoundItems.add (f line.number))
      { modifiers := settings.sound } = ((Text.splitOutsideParens ',' line.value).foldl
        (SoundItems.add line.number) { modifiers := settings.sound }).renumber f := by
    change List.foldl _ (SoundItems.renumber f { modifiers := settings.sound }) _ = _
    exact List.foldl_hom _ (SoundItems.add_renumber f line.number)
  simp only [readSoundLine, Line.renumber, items]
  generalize (Text.splitOutsideParens ',' line.value).foldl _ _ = s
  have appended : { r.renumber f with reports := (r.renumber f).reports ++ (s.renumber f).reports } =
      ({ r with reports := r.reports ++ s.reports } : Reading).renumber f := by
    simp only [Reading.renumber, SoundItems.renumber, List.map_append]
  rw [appended]
  dsimp only [SoundItems.renumber]
  split
  · exact defineSound_renumber f _ line s _ _
  · exact congrArg Except.ok (Reading.report_renumber f _ _ _ _)

theorem readSounds_renumber (s : Option Section) :
    readSounds settings (r.renumber f) (s.map (Section.renumber f)) =
      (readSounds settings r s).map (Reading.renumber f) := by
  cases s with
  | none => rfl
  | some s => exact foldlM_map_view s.lines r (readSoundLine_renumber f)

theorem readMusicLine_renumber (c : Score) (stepVelocity : Int) (depth : Nat)
    (done : MusicalSection × List Diagnostic) :
    readMusicLine c stepVelocity depth (done.map id (List.map (Diagnostic.renumber f))) (line.renumber f) =
      (readMusicLine c stepVelocity depth done line).map id (List.map (Diagnostic.renumber f)) := by
  simp only [readMusicLine, Line.renumber, Prod.map, Phrase.ofLine_renumber, Notation.addLine_renumber,
    List.map_append, id]

theorem readMusicLines_renumber (c : Score) (stepVelocity : Int) (depth : Nat) (s : Section) :
    readMusicLines c stepVelocity depth (s.renumber f) =
      (readMusicLines c stepVelocity depth s).map id (List.map (Diagnostic.renumber f)) := by
  rw [readMusicLines, Section.moveFirst_renumber, readMusicLines]
  exact foldl_map_view _ ({ name := s.name }, []) fun done line =>
    readMusicLine_renumber f line c stepVelocity depth done

theorem readMusicalSection_renumber (c : Score) (s : Section) :
    readMusicalSection settings c (s.renumber f) =
      (readMusicalSection settings c s).map (Prod.map id (List.map (Diagnostic.renumber f))) := by
  unfold readMusicalSection
  refine bind_same_view (fun depth => bind_same_view (fun stepVelocity => congrArg Except.ok ?_) _) _
  exact readMusicLines_renumber f c stepVelocity depth.toNat s

theorem readPlaylistItem_renumber (sections : List Section) (n : Nat) (name : Text) :
    readPlaylistItem settings (sections.map (Section.renumber f)) (f n) (r.renumber f) name =
      (readPlaylistItem settings sections n r name).map (Reading.renumber f) := by
  unfold readPlaylistItem
  rw [find?_map_renumber]
  cases Script.find? sections name with
  | none => exact congrArg Except.ok (r.report_renumber f _ _ _)
  | some s =>
    dsimp only [Option.map]
    rw [readMusicalSection_renumber]
    refine bind_map_view (fun read => congrArg Except.ok ?_) _
    simp only [Reading.renumber, Prod.map, List.map_append, id]

theorem readMusic_renumber (zero : f 0 = 0) (sections : List Section) :
    readMusic settings (sections.map (Section.renumber f)) (r.renumber f) =
      (readMusic settings sections r).map (Reading.renumber f) := by
  have line : ((Script.find? (sections.map (Section.renumber f)) compositionName).map
      (·.numberOf "playlist")).getD 0 =
        f (((Script.find? sections compositionName).map (·.numberOf "playlist")).getD 0) := by
    rw [find?_map_renumber]
    cases Script.find? sections compositionName with
    | none => exact zero.symm
    | some s => exact s.numberOf_renumber f zero _
  rw [readMusic, readMusic, line]
  simpa using foldlM_map_view (playedNames r.score) r fun r name => readPlaylistItem_renumber f r sections _ name

theorem controllerMessages_renumber (controllers : Table Int) (n : Nat) (values : Table Int) :
    controllerMessages controllers (f n) values =
      (controllerMessages controllers n values).map id (List.map (Diagnostic.renumber f)) := by
  simp only [controllerMessages, Prod.map, List.map_filterMap, id]
  congr 2
  funext entry
  split_ifs <;> rfl

theorem read_renumber (controllers : Table Int) (n : Nat) (message value : Text) :
    ControlChange.read controllers (f n) message value =
      (ControlChange.read controllers n message value).map (Prod.map id (List.map (Diagnostic.renumber f))) := by
  unfold ControlChange.read
  split_ifs
  · rfl
  · split <;> rfl
  · refine bind_same_view (fun values => ?_) _
    rw [controllerMessages_renumber f controllers n]
    refine congrArg Except.ok ?_
    split_ifs <;> rfl
  · rfl

theorem readControlLine_renumber :
    readControlLine (r.renumber f) (line.renumber f) =
      (readControlLine r line).map (Reading.renumber f) := by
  unfold readControlLine
  dsimp only [Line.path, Line.renumber]
  cases ControlTarget.ofPath? (Text.fields '/' line.key) with
  | none => exact congrArg Except.ok (r.report_renumber f _ _ _)
  | some target =>
    dsimp only [Reading.renumber]
    cases r.score.section? (target.sectionIn r.score) with
    | none => exact congrArg Except.ok (r.report_renumber f _ _ _)
    | some s =>
      dsimp only
      rw [read_renumber]
      refine bind_map_view (fun read => ?_) _
      obtain ⟨change, reports⟩ := read
      simp only [Prod.map, id, ← List.map_append]
      cases change <;> rfl

theorem readControl_renumber (s : Option Section) :
    readControl (r.renumber f) (s.map (Section.renumber f)) = (readControl r s).map (Reading.renumber f) := by
  cases s with
  | none => rfl
  | some s => exact foldlM_map_view s.lines r (readControlLine_renumber f)

theorem ofSections_renumber (zero : f 0 = 0) (sections : List Section) :
    ofSections settings (sections.map (Section.renumber f)) =
      (ofSections settings sections).map (Reading.renumber f) := by
  simp only [ofSections, find?_map_renumber]
  rw [show readHeader {} _ = _ from readHeader_renumber f {} zero _]
  refine bind_map_view (fun headed => ?_) _
  rw [readInstruments_renumber f headed zero]
  refine bind_map_view (fun staffed => ?_) _
  rw [readSequences_renumber, readSounds_renumber]
  refine bind_map_view (fun sounding => ?_) _
  rw [readMusic_renumber f sounding zero]
  exact bind_map_view (fun played => readControl_renumber f played _) _

end Score

end ScoreScript
