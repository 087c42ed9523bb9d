import Mathlib.Logic.Relation
import ScoreScript.Proofs.Line
import ScoreScript.Proofs.Tables
import ScoreScript.Score.Script

set_option autoImplicit false

namespace ScoreScript

def Ornament.InRange : Ornament → Prop
  | arpeggio _ spacing duration => (2 ≤ spacing ∧ spacing ≤ 24) ∧ 2 ≤ duration ∧ duration ≤ 24
  | strum _ delay decay => (3 ≤ delay ∧ delay ≤ 15) ∧ 0 ≤ decay ∧ decay ≤ 10

def Instrument.InRange (i : Instrument) : Prop :=
  (0 ≤ i.channel ∧ i.channel ≤ 15) ∧ 0 ≤ i.octave ∧ 0 ≤ i.velocity ∧ i.velocity ≤ 127

namespace Score

open Relation

/-- What a line before the music may do to a score. -/
inductive Edit (settings : Settings) : Score → Score → Prop where
  | free (c : Score) (title author : Text) (playlist : List PlaylistItem) (samples : Table Sample)
    (literals : Table Int) (sequences : Table Text) (controllers : Table Int) :
    Edit settings c { c with title, author, playlist, samples, literals, sequences, controllers }
  | bpm (c : Score) {bpm : Int} (low : 0 ≤ bpm) (high : bpm ≤ 255) : Edit settings c { c with bpm }
  | time (c : Score) {signature : Text} {grid : Grid}
    (known : Grid.ofSignature? signature = some grid) : Edit settings c { c with signature, grid }
  | transposition (c : Score) {transposition : Int} (low : -7 ≤ transposition)
    (high : transposition ≤ 7) : Edit settings c { c with transposition }
  | declare (c : Score) {name : Text} {velocity : Int} (new : c.instrument? name = none)
    (read : settings.instrumentVelocity.toInt = .ok velocity) :
    Edit settings c { c with
      instruments := c.instruments ++ [{ name, velocity, endpoint := settings.endpoint.display }] }
  | change (c : Score) (name : Text) {change : Instrument → Instrument}
    (named : ∀ i, (change i).name = i.name) (ranged : ∀ i, i.InRange → (change i).InRange) :
    Edit settings c { c with instruments := changeInstrument name change c.instruments }
  | ornament (c : Score) (name : Text) {ornament : Ornament} (ranged : ornament.InRange) :
    Edit settings c { c with ornaments := c.ornaments.insert name ornament }

abbrev Edits (settings : Settings) : Score → Score → Prop := ReflTransGen (Edit settings)

variable {settings : Settings} {c : Score} {r after : Reading}

theorem edits_foldlM {α : Type} {step : Reading → α → Except Fault Reading}
    (edits : ∀ {r item after}, step r item = .ok after → Edits settings r.score after.score)
    {items : List α} (read : items.foldlM step r = .ok after) : Edits settings r.score after.score :=
  Fault.foldlM_invariant (Edits settings r.score ·.score)
    (fun before here => before.trans (edits here)) .refl read

theorem numberIn?_eq_some {low high n : Int} {t : Text} (shown : numberIn? low high t = some n) :
    low ≤ n ∧ n ≤ high := by
  unfold numberIn? at shown
  split at shown
  · split at shown
    next bounds =>
      cases shown
      exact bounds
    next => cases shown
  · cases shown

theorem edits_readHeaderLine {line : Script.Line} (read : readHeaderLine r line = .ok after) :
    Edits settings r.score after.score := by
  unfold readHeaderLine at read
  dsimp only at read
  split_ifs at read with playlist bpm time transposition title author controllers info
  · cases read
    exact .single (.free ..)
  · split at read
    next shown =>
      cases read
      have bounds := numberIn?_eq_some shown
      exact .single (.bpm _ bounds.1 bounds.2)
    next =>
      cases read
      exact .refl
  · split at read
    next known =>
      cases read
      exact .single (.time _ known)
    next =>
      cases read
      -- an unknown signature counts as the one that a score starts with
      have common : Grid.ofSignature? "4/4" = some {} := by decide
      exact .single (.time _ common)
  · split at read
    next shown =>
      cases read
      have bounds := numberIn?_eq_some shown
      exact .single (.transposition _ bounds.1 bounds.2)
    next =>
      cases read
      exact .refl
  · cases read
    exact .single (.free ..)
  · cases read
    exact .single (.free ..)
  · obtain ⟨names, -, entered⟩ := Fault.bind_eq_ok.1 read
    cases entered
    by_cases none : names = []
    · rw [if_pos none]
      exact .single (.free ..)
    · rw [if_neg none]
      exact .single (.free ..)
  · cases read
    exact .refl
  · cases read
    exact .refl

theorem edits_readHeader {s : Option Script.Section} (read : readHeader r s = .ok after) :
    Edits settings r.score after.score := by
  cases s with
  | none =>
    cases read
    exact .refl
  | some s => exact edits_foldlM edits_readHeaderLine read

def InstrumentItem.InRange : InstrumentItem → Prop
  | channel n => 0 ≤ n ∧ n ≤ 15
  | octave n => 0 ≤ n
  | velocity n => 0 ≤ n ∧ n ≤ 127
  | endpoint _ | info | unknown _ | invalid => True

theorem InstrumentItem.inRange_ofText (item : Text) : (InstrumentItem.ofText item).InRange := by
  unfold ofText
  split
  next key value _ =>
    dsimp only
    split_ifs
    · simp only [InRange, clampTo]
      omega
    · exact Int.le_max_left ..
    · exact ⟨clampData_nonneg _, clampData_le _⟩
    · trivial
    · trivial
  next => split_ifs <;> trivial
  next => trivial

theorem edits_readInstrumentItem (name : Text) (line : Nat) (r : Reading) (item : Text) :
    Edits settings r.score (readInstrumentItem name line r item).score := by
  have bounds := InstrumentItem.inRange_ofText item
  unfold readInstrumentItem
  dsimp only
  split
  next => exact .single (.change _ name (fun _ => rfl) fun _ ranged => ranged)
  next channel same =>
    rw [same] at bounds
    exact .single (.change _ name (fun _ => rfl) fun _ ranged => ⟨bounds, ranged.2⟩)
  next octave same =>
    rw [same] at bounds
    exact .single (.change _ name (fun _ => rfl) fun _ ranged => ⟨ranged.1, bounds, ranged.2.2⟩)
  next velocity same =>
    rw [same] at bounds
    exact .single (.change _ name (fun _ => rfl) fun _ ranged => ⟨ranged.1, ranged.2.1, bounds⟩)
  next => exact .refl
  next => exact .refl
  next => exact .refl

theorem declareInstrument_cases {name : Text} (declared : declareInstrument settings r name = .ok after) :
    after = r ∨ ∃ velocity, r.score.instrument? name = none ∧
      settings.instrumentVelocity.toInt = .ok velocity ∧ after = r.update fun c => { c with
        instruments := c.instruments ++ [{ name, velocity, endpoint := settings.endpoint.display }] } := by
  unfold declareInstrument at declared
  split at declared
  next =>
    cases declared
    exact .inl rfl
  next new =>
    obtain ⟨velocity, read, same⟩ := Fault.bind_eq_ok.1 declared
    cases same
    exact .inr ⟨velocity, new, read, rfl⟩

theorem edits_declareInstrument {name : Text}
    (declared : declareInstrument settings r name = .ok after) :
    Edits settings r.score after.score := by
  rcases declareInstrument_cases declared with same | ⟨velocity, new, read, same⟩
  · rw [same]
  · rw [same]
    exact .single (.declare _ new read)

theorem edits_readInstrumentLine {line : Script.Line}
    (read : readInstrumentLine settings r line = .ok after) : Edits settings r.score after.score := by
  obtain ⟨declared, entered, items⟩ := Fault.bind_eq_ok.1 read
  cases items
  exact List.foldlRecOn (motive := fun (now : Reading) => Edits settings r.score now.score) line.items _
    (edits_declareInstrument entered) fun _ before item _ =>
      before.trans (edits_readInstrumentItem line.key line.number _ item)

theorem edits_readInstruments {s : Option Script.Section}
    (read : readInstruments settings r s = .ok after) : Edits settings r.score after.score := by
  cases s with
  | none =>
    cases read
    exact .refl
  | some s => exact edits_foldlM edits_readInstrumentLine read

theorem edits_readSequences (r : Reading) (s : Option Script.Section) :
    Edits settings r.score (readSequences r s).score := by
  cases s with
  | none => exact .refl
  | some s => exact .single (.free ..)

theorem SoundItems.modifierIn_bounds {s : SoundItems} {low high value : Int} {name : String}
    (ordered : low ≤ high) (read : s.modifierIn low high name = .ok value) :
    low ≤ value ∧ value ≤ high := by
  obtain ⟨n, -, same⟩ := Fault.bind_eq_ok.1 read
  cases same
  simp only [clampTo]
  omega

theorem defineSound_cases {line : Script.Line} {s : SoundItems} {function : Text} {arguments : List Text}
    (read : defineSound r line s function arguments = .ok after) :
    (∃ samples literals, after = r.update fun c => { c with samples, literals }) ∨
      (∃ ornament : Ornament, ornament.InRange ∧
        after = r.update fun c => { c with ornaments := c.ornaments.insert line.key ornament }) ∨
      after = r.report .unexpectedKeyword function line.number := by
  unfold defineSound at read
  dsimp only at read
  split_ifs at read with sample literal arpeggio strum
  · obtain ⟨volume, -, same⟩ := Fault.bind_eq_ok.1 read
    cases same
    exact .inl ⟨_, _, rfl⟩
  · cases read
    exact .inl ⟨_, _, rfl⟩
  · obtain ⟨spacing, step, more⟩ := Fault.bind_eq_ok.1 read
    obtain ⟨duration, lasts, same⟩ := Fault.bind_eq_ok.1 more
    cases same
    exact .inr (.inl ⟨.arpeggio _ spacing duration, ⟨SoundItems.modifierIn_bounds (by decide) step,
      SoundItems.modifierIn_bounds (by decide) lasts⟩, rfl⟩)
  · obtain ⟨delay, waits, more⟩ := Fault.bind_eq_ok.1 read
    obtain ⟨decay, fades, same⟩ := Fault.bind_eq_ok.1 more
    cases same
    exact .inr (.inl ⟨.strum _ delay decay, ⟨SoundItems.modifierIn_bounds (by decide) waits,
      SoundItems.modifierIn_bounds (by decide) fades⟩, rfl⟩)
  · cases read
    exact .inr (.inr rfl)

theorem edits_defineSound {line : Script.Line} {s : SoundItems} {function : Text}
    {arguments : List Text} (read : defineSound r line s function arguments = .ok after) :
    Edits settings r.score after.score := by
  rcases defineSound_cases read with ⟨samples, literals, same⟩ | ⟨ornament, ranged, same⟩ | same <;> rw [same]
  · exact .single (.free ..)
  · exact .single (.ornament _ line.key ranged)
  · exact .refl

theorem edits_readSoundLine {line : Script.Line} (read : readSoundLine settings r line = .ok after) :
    Edits settings r.score after.score := by
  unfold readSoundLine at read
  dsimp only at read
  split at read
  · have edits : Edits settings _ after.score := edits_defineSound read
    exact edits
  · cases read
    exact .refl

theorem edits_readSounds {s : Option Script.Section} (read : readSounds settings r s = .ok after) :
    Edits settings r.score after.score := by
  cases s with
  | none =>
    cases read
    exact .refl
  | some s => exact edits_foldlM edits_readSoundLine read

/-! ### The phases of reading -/

def beforeMusic (settings : Settings) (sections : List Script.Section) : Except Fault Reading := do
  let r ← readHeader {} (Script.find? sections compositionName)
  let r ← readInstruments settings r (Script.find? sections instrumentsName)
  readSounds settings (readSequences r (Script.find? sections sequencesName))
    (Script.find? sections soundsName)

def beforeControl (settings : Settings) (sections : List Script.Section) : Except Fault Reading := do
  readMusic settings sections (← beforeMusic settings sections)

theorem ofSections_eq (settings : Settings) (sections : List Script.Section) :
    ofSections settings sections =
      beforeControl settings sections >>= (readControl · (Script.find? sections controlName)) := by
  simp only [ofSections, beforeControl, beforeMusic, bind_assoc]

theorem edits_beforeMusic {sections : List Script.Section}
    (read : beforeMusic settings sections = .ok r) : Edits settings {} r.score := by
  obtain ⟨titled, header, read⟩ := Fault.bind_eq_ok.1 read
  obtain ⟨manned, instruments, sounds⟩ := Fault.bind_eq_ok.1 read
  have composed : Edits settings {} titled.score := edits_readHeader header
  exact ((composed.trans (edits_readInstruments instruments)).trans
    (edits_readSequences manned _)).trans (edits_readSounds sounds)

theorem sections_of_edits {edited : Score} (edits : Edits settings c edited) :
    edited.sections = c.sections := by
  induction edits with
  | refl => rfl
  | tail _ edit ih =>
    rw [← ih]
    cases edit <;> rfl

/-! ### Music -/

theorem readPlaylistItem_cases {sections : List Script.Section} {line : Nat} {name : Text}
    (read : readPlaylistItem settings sections line r name = .ok after) :
    Script.find? sections name = none ∧ after = r.report .undefinedSection name line ∨
      ∃ s velocity depth, Script.find? sections name = some s ∧
        settings.stepVelocity.toInt = .ok velocity ∧
        after.score = { r.score with
          sections := r.score.sections ++ [(readMusicLines r.score velocity depth s).1] } ∧
        after.reports = r.reports ++ (readMusicLines r.score velocity depth s).2 := by
  unfold readPlaylistItem at read
  split at read
  next missing =>
    cases read
    exact .inl ⟨missing, rfl⟩
  next s found =>
    obtain ⟨musical, music, same⟩ := Fault.bind_eq_ok.1 read
    cases same
    obtain ⟨depth, -, more⟩ := Fault.bind_eq_ok.1 music
    obtain ⟨velocity, loud, same⟩ := Fault.bind_eq_ok.1 more
    cases same
    exact .inr ⟨s, velocity, depth.toNat, found, loud, rfl, rfl⟩

theorem readMusic_sections {keeps : MusicalSection → Prop} {sections : List Script.Section}
    (filled : ∀ {velocity}, settings.stepVelocity.toInt = .ok velocity →
      ∀ depth s, keeps (readMusicLines r.score velocity depth s).1)
    (before : ∀ s ∈ r.score.sections, keeps s) (read : readMusic settings sections r = .ok after) :
    ∃ musical, after.score = { r.score with sections := musical } ∧ ∀ s ∈ musical, keeps s := by
  refine Fault.foldlM_invariant (fun (now : Reading) => ∃ musical,
    now.score = { r.score with sections := musical } ∧ ∀ s ∈ musical, keeps s) ?_ ⟨_, rfl, before⟩ read
  intro now name next ⟨musical, same, whole⟩ here
  rcases readPlaylistItem_cases here with ⟨-, kept⟩ | ⟨s, velocity, depth, -, loud, added, -⟩
  · rw [kept]
    exact ⟨musical, same, whole⟩
  · rw [same] at added
    refine ⟨_, added, ?_⟩
    simp only [List.forall_mem_append, List.forall_mem_singleton]
    exact ⟨whole, filled loud depth s⟩

/-! ### Control lines -/

def Asks (c : Score) (line : Script.Line) (target : ControlTarget) (change : ControlChange) : Prop :=
  ControlTarget.ofPath? line.path = some target ∧
    ∃ reports, ControlChange.read c.controllers line.number target.message (Text.trim line.value) =
      .ok (some change, reports)

theorem readControlLine_cases {line : Script.Line} (read : readControlLine r line = .ok after) :
    after.score = r.score ∨ ∃ target change, r.score.Asks line target change ∧
      after.score = { r.score with
        sections :=
          changeSection (target.sectionIn r.score) (applyChange target change) r.score.sections } := by
  unfold readControlLine at read
  dsimp only at read
  split at read
  next =>
    cases read
    exact .inl rfl
  next target addressed =>
    split at read
    next =>
      cases read
      exact .inl rfl
    next =>
      obtain ⟨⟨change, reports⟩, asked, changed⟩ := Fault.bind_eq_ok.1 read
      cases change with
      | none =>
        cases changed
        exact .inl rfl
      | some change =>
        cases changed
        exact .inr ⟨target, change, ⟨addressed, reports, asked⟩, rfl⟩

theorem forall_changeSection {keeps : MusicalSection → Prop} {name : Text}
    {change : MusicalSection → MusicalSection} (kept : ∀ s, keeps s → keeps (change s))
    {sections : List MusicalSection} (whole : ∀ s ∈ sections, keeps s) :
    ∀ s ∈ changeSection name change sections, keeps s := by
  induction sections with
  | nil => simp [changeSection]
  | cons s rest ih =>
    obtain ⟨here, later⟩ := List.forall_mem_cons.1 whole
    unfold changeSection
    split
    · exact List.forall_mem_cons.2 ⟨kept s here, later⟩
    · exact List.forall_mem_cons.2 ⟨here, ih later⟩

theorem readControl_sections {keeps : MusicalSection → Prop} {control : Option Script.Section}
    (changed : ∀ line ∈ (control.map Script.Section.lines).getD [], ∀ target change,
      r.score.Asks line target change → ∀ s, keeps s → keeps (applyChange target change s))
    (before : ∀ s ∈ r.score.sections, keeps s) (read : readControl r control = .ok after) :
    ∃ musical, after.score = { r.score with sections := musical } ∧ ∀ s ∈ musical, keeps s := by
  cases control with
  | none =>
    cases read
    exact ⟨_, rfl, before⟩
  | some control =>
    refine Fault.foldlM_invariant_of_mem (fun (now : Reading) => ∃ musical,
      now.score = { r.score with sections := musical } ∧ ∀ s ∈ musical, keeps s)
      (fun line member => ?_) ⟨_, rfl, before⟩ read
    intro now next ⟨musical, same, whole⟩ here
    rcases readControlLine_cases here with kept | ⟨target, change, asked, made⟩
    · exact ⟨musical, kept.trans same, whole⟩
    · rw [same] at made asked
      exact ⟨_, made, forall_changeSection (changed line member target change asked) whole⟩

end Score

/-! ### Steps -/

namespace MusicalSection

theorem measuresOf_insert (s : MusicalSection) (name instrument : Text) (measures : List Measure) :
    ({ s with measures := s.measures.insert name measures } : MusicalSection).measuresOf instrument =
      if instrument = name then measures else s.measuresOf instrument := by
  simp only [measuresOf, Table.find?_insert]
  split <;> rfl

theorem forall_measuresOf {s : MusicalSection} (keeps : List Measure → Prop) (start : keeps [])
    (entries : ∀ entry ∈ s.measures, keeps entry.2) : ∀ instrument, keeps (s.measuresOf instrument) := by
  intro instrument
  unfold measuresOf
  cases found : s.measures.find? instrument with
  | none => exact start
  | some measures => exact entries (instrument, measures) (Table.mem_of_find? found)

def AllSteps (keeps : Step → Prop) (s : MusicalSection) : Prop :=
  ∀ instrument, ∀ measure ∈ s.measuresOf instrument, ∀ step ∈ measure, keeps step

theorem allSteps_of_entries {s : MusicalSection} {keeps : Step → Prop}
    (entries : ∀ entry ∈ s.measures, ∀ measure ∈ entry.2, ∀ step ∈ measure, keeps step) :
    s.AllSteps keeps :=
  forall_measuresOf (fun measures => ∀ measure ∈ measures, ∀ step ∈ measure, keeps step) (by simp) entries

theorem AllSteps.imp {keeps other : Step → Prop} {s : MusicalSection} (all : s.AllSteps keeps)
    (weaker : ∀ step, keeps step → other step) : s.AllSteps other :=
  fun instrument measure inSection step inMeasure =>
    weaker step (all instrument measure inSection step inMeasure)

end MusicalSection

namespace Score

variable {keeps : Step → Prop} {c : Score}

theorem measuresOf_readMusicLines {stepVelocity : Int} (keeps : List Measure → Prop) (start : keeps [])
    (added : ∀ name chordAt line phrases measures, keeps measures →
      keeps (Notation.addLine (contextOf c (instrumentOf c stepVelocity name)) chordAt line measures phrases).1)
    (depth : Nat) (s : Script.Section) :
    ∀ instrument, keeps ((readMusicLines c stepVelocity depth s).1.measuresOf instrument) := by
  refine List.foldlRecOn (motive := fun (done : MusicalSection × List Diagnostic) =>
    ∀ instrument, keeps (done.1.measuresOf instrument)) _ _ ?_ fun done before line _ instrument => ?_
  · intro instrument
    exact start
  · rw [readMusicLine, MusicalSection.measuresOf_insert]
    split
    · exact added _ _ _ _ _ (before line.key)
    · exact before instrument

theorem allSteps_readMusicLines {stepVelocity : Int}
    (kept : ∀ name, Notation.Bar.IsKept (contextOf c (instrumentOf c stepVelocity name)) keeps)
    (depth : Nat) (s : Script.Section) :
    (readMusicLines c stepVelocity depth s).1.AllSteps keeps :=
  measuresOf_readMusicLines (fun measures => ∀ measure ∈ measures, ∀ step ∈ measure, keeps step) (by simp)
    (fun name chordAt line phrases _ before =>
      Notation.forall_addLine _ chordAt line (kept name) phrases before) depth s

structure ControlChange.IsKept (change : ControlChange) (keeps : Step → Prop) : Prop where
  velocity : ∀ text, change = .velocity text → ∀ s : Step, keeps s →
    keeps { s with velocity := adjustVelocity s.velocity text }
  messages : ∀ messages, change = .messages messages → ∀ s : Step, keeps s →
    keeps { s with messages := s.messages ++ messages }
  carrier : ∀ messages, change = .messages messages → keeps { messages := messages }

theorem forall_apply {change : ControlChange} (kept : change.IsKept keeps) {measure : Measure}
    (before : ∀ step ∈ measure, keeps step) : ∀ step ∈ change.apply measure, keeps step := by
  cases change with
  | velocity text =>
    exact List.forall_mem_map.2 fun step member => kept.velocity text rfl step (before step member)
  | messages changes =>
    cases changes with
    | nil => exact before
    | cons first rest =>
      cases measure with
      | nil => exact List.forall_mem_singleton.2 (kept.carrier _ rfl)
      | cons step later =>
        obtain ⟨here, after⟩ := List.forall_mem_cons.1 before
        exact List.forall_mem_cons.2 ⟨kept.messages _ rfl step here, after⟩

theorem allSteps_applyChange {change : ControlChange} (kept : change.IsKept keeps)
    (target : ControlTarget) {s : MusicalSection} (all : s.AllSteps keeps) :
    (applyChange target change s).AllSteps keeps := by
  have controlled : ∀ measure ∈ controlledMeasures s target.instrument, ∀ step ∈ measure, keeps step := by
    unfold controlledMeasures
    split
    · simp
    · exact all target.instrument
  intro instrument
  rw [applyChange, MusicalSection.measuresOf_insert]
  split
  · intro measure member
    obtain ⟨index, bound, rfl⟩ := List.mem_mapIdx.1 member
    have before := controlled _ (List.getElem_mem bound)
    split
    · exact forall_apply kept before
    · exact before
  · exact all instrument

end Score

end ScoreScript
