import ScoreScript.Proofs.Events
import ScoreScript.Proofs.Finite
import ScoreScript.Proofs.Origin
import ScoreScript.Proofs.Playlist

set_option autoImplicit false

namespace ScoreScript

namespace Fault

variable {α β : Type}

structure FailsJust (outcome : Except Fault α) (fault : Fault) (reason : Prop) : Prop where
  fails : reason → outcome = .error fault
  works : ¬reason → ∃ value, outcome = .ok value

variable {fault : Fault}

theorem FailsJust.map {outcome : Except Fault α} {reason : Prop}
    (just : FailsJust outcome fault reason) (f : α → β) :
    FailsJust (do return f (← outcome)) fault reason where
  fails wrong := by rw [just.fails wrong]; rfl
  works right := by
    obtain ⟨value, done⟩ := just.works right
    exact ⟨f value, by rw [done]; rfl⟩

theorem FailsJust.bind {first : Except Fault α} {next : α → Except Fault β} {reason later : Prop}
    (just : FailsJust first fault reason)
    (rest : ∀ value, first = .ok value → FailsJust (next value) fault later) :
    FailsJust (first >>= next) fault (reason ∨ later) := by
  by_cases wrong : reason
  · rw [just.fails wrong]
    exact ⟨fun _ => rfl, fun right => absurd (.inl wrong) right⟩
  · obtain ⟨value, done⟩ := just.works wrong
    have after := rest value done
    rw [done]
    exact ⟨fun either => after.fails (either.resolve_left wrong), fun right => after.works fun bad =>
      right (.inr bad)⟩

theorem FailsJust.foldlM {step : β → α → Except Fault β} {reason : α → Prop} (keeps : β → Prop)
    (kept : ∀ {state item after}, keeps state → step state item = .ok after → keeps after)
    {items : List α}
    (just : ∀ state, keeps state → ∀ item ∈ items, FailsJust (step state item) fault (reason item))
    {state : β} (start : keeps state) :
    FailsJust (items.foldlM step state) fault (∃ item ∈ items, reason item) := by
  induction items generalizing state with
  | nil => exact ⟨by simp, fun _ => ⟨state, rfl⟩⟩
  | cons item rest ih =>
    rw [List.foldlM_cons, List.exists_mem_cons_iff]
    apply (just state start item (by simp)).bind
    intro after done
    exact ih (fun state before other member => just state before other (by simp [member]))
      (kept start done)

theorem exists_foldlM {step : β → α → Except Fault β}
    (works : ∀ state item, ∃ after, step state item = .ok after) (items : List α) (state : β) :
    ∃ result, items.foldlM step state = .ok result := by
  induction items generalizing state with
  | nil => exact ⟨state, rfl⟩
  | cons item rest ih =>
    obtain ⟨after, done⟩ := works state item
    obtain ⟨result, whole⟩ := ih after
    exact ⟨result, bind_eq_ok.2 ⟨after, done, whole⟩⟩

theorem FailsJust.mapM {f : α → Except Fault β} {reason : α → Prop} {items : List α}
    (just : ∀ item ∈ items, FailsJust (f item) fault (reason item)) :
    FailsJust (items.mapM f) fault (∃ item ∈ items, reason item) := by
  induction items with
  | nil => exact ⟨by simp, fun _ => ⟨[], rfl⟩⟩
  | cons item rest ih =>
    obtain ⟨here, later⟩ := List.forall_mem_cons.1 just
    rw [List.mapM_cons, List.exists_mem_cons_iff]
    apply here.bind
    intro value _
    exact (ih later).map (value :: ·)

end Fault

open Fault

/-! ### Controller values -/

namespace Text

def IsInfiniteController (t : Text) : Prop :=
  .char '.' ∈ trim t ∧ ∃ x ∈ readDecimal? (trim t), (x * 127).isInfinite = true

instance (t : Text) : Decidable t.IsInfiniteController := inferInstanceAs (Decidable (_ ∧ _))

def HasInfiniteController (t : Text) : Prop :=
  ∃ item ∈ t.splitOn (.char ','), (fields '=' item).length = 2 ∧
    ∃ value ∈ (fields '=' item)[1]?, IsInfiniteController value

instance (t : Text) : Decidable t.HasInfiniteController :=
  inferInstanceAs (Decidable (∃ item ∈ _, _))

theorem isDefined_of_readDecimal? {t : Text} {x : Binary64} (read : readDecimal? t = some x) :
    x.IsDefined := by
  simp only [readDecimal?, bind, Option.bind_eq_some_iff] at read
  obtain ⟨whole, -, fraction, -, read⟩ := read
  -- with an exponent or without one
  split at read
  all_goals
    obtain ⟨exponent, -, read⟩ := Option.bind_eq_some_iff.1 read
    split at read
    · cases read
    · cases read
      exact Binary64.isDefined_ofDecimal _ _ _

theorem scaleToController_failsJust {x : Binary64} (defined : x.IsDefined) :
    FailsJust (scaleToController x) .infiniteNumber ((x * 127).isInfinite = true) := by
  have scale : (127 : Binary64) = .number 127 := by decide +kernel
  have scaled : (x * 127).IsDefined := by
    rw [scale]
    exact Binary64.isDefined_mul_number defined (by norm_num)
  refine FailsJust.map ?_ (Int.fdiv · 10)
  cases product : x * 127 with
  | number q => exact ⟨nofun, fun _ => ⟨_, rfl⟩⟩
  | negativeZero => exact ⟨nofun, fun _ => ⟨_, rfl⟩⟩
  | infinity negative => exact ⟨fun _ => rfl, fun finite => absurd rfl finite⟩
  | undefined negative => exact absurd product (scaled negative)

theorem toControllerValue_failsJust (t : Text) :
    FailsJust (toControllerValue t) .infiniteNumber t.IsInfiniteController := by
  unfold toControllerValue IsInfiniteController
  by_cases point : CodePoint.char '.' ∈ trim t
  · simp only [point, if_true, true_and]
    cases shown : readDecimal? (trim t) with
    | none => exact ⟨by simp, fun _ => ⟨0, rfl⟩⟩
    | some x => simpa using scaleToController_failsJust (isDefined_of_readDecimal? shown)
  · simp only [point, if_false, false_and]
    exact ⟨nofun, fun _ => ⟨_, rfl⟩⟩

theorem readControllers_failsJust (t : Text) :
    FailsJust (readControllers t) .infiniteNumber t.HasInfiniteController := by
  refine FailsJust.foldlM (fun _ => True) (fun _ _ => trivial) (fun table _ item _ => ?_) trivial
  unfold addController
  split
  next name value pair =>
    have just := (toControllerValue_failsJust value).map (table.insert (trim name))
    simpa [pair] using just
  next other =>
    refine ⟨fun ⟨two, _⟩ => ?_, fun _ => ⟨_, rfl⟩⟩
    obtain ⟨name, value, pair⟩ := List.length_eq_two.1 two
    exact absurd pair (other name value)

end Text

/-! ### Settings -/

namespace Settings

def isNumber (value : Value) : Bool := value.toInt.isOk

theorem exists_toInt {value : Value} (number : isNumber value = true) : ∃ n, value.toInt = .ok n := by
  unfold isNumber at number
  cases read : value.toInt with
  | error fault => simp [read, Except.isOk, Except.toBool] at number
  | ok n => exact ⟨n, rfl⟩

def hasSoundNumbers (table : Table Value) : Bool :=
  soundDefaults.all fun entry => isNumber ((table.find? entry.1).getD .null)

theorem hasSoundNumbers_insert {table : Table Value} (numbers : hasSoundNumbers table = true)
    (name : Text) (n : Int) : hasSoundNumbers (table.insert name (.int n)) = true := by
  simp only [hasSoundNumbers, List.all_eq_true, Table.find?_insert] at numbers ⊢
  intro entry member
  split
  · rfl
  · exact numbers entry member

structure IsNumeric (s : Settings) : Prop where
  stepVelocity : isNumber s.stepVelocity = true
  instrumentVelocity : isNumber s.instrumentVelocity = true
  velocityFloor : isNumber s.velocityFloor = true
  maxDepth : isNumber s.maxDepth = true
  sound : hasSoundNumbers s.sound = true

theorem isNumeric_packaged {settings : Settings} (packaged : ofPartial .null = .ok settings) :
    settings.IsNumeric := by
  have checked : (ofPartial .null).toOption.any (fun s => isNumber s.stepVelocity &&
      isNumber s.instrumentVelocity && isNumber s.velocityFloor && isNumber s.maxDepth &&
      hasSoundNumbers s.sound) = true := by decide +kernel
  rw [packaged] at checked
  simp only [Except.toOption, Option.any_some, Bool.and_eq_true] at checked
  obtain ⟨⟨⟨⟨step, instrument⟩, floor⟩, depth⟩, sound⟩ := checked
  exact ⟨step, instrument, floor, depth, sound⟩

theorem packaged_velocities {settings : Settings} (packaged : ofPartial .null = .ok settings) :
    settings.instrumentVelocity.toInt = .ok 100 ∧ settings.velocityFloor.toInt = .ok 20 ∧
      settings.stepVelocity.toInt = .ok 80 := by
  have checked : (ofPartial .null).toOption.any (fun s => decide
      (s.instrumentVelocity.toInt = .ok 100 ∧ s.velocityFloor.toInt = .ok 20 ∧
        s.stepVelocity.toInt = .ok 80)) = true := by
    decide +kernel
  rw [packaged] at checked
  exact of_decide_eq_true checked

theorem isData_packaged {settings : Settings} (packaged : ofPartial .null = .ok settings)
    {velocity : Int} (read : settings.instrumentVelocity.toInt = .ok velocity) : IsData velocity := by
  rw [(packaged_velocities packaged).1] at read
  cases read
  decide

end Settings

/-! ### Sections of scripts -/

namespace Score

theorem readHeaderLine_failsJust (r : Reading) (line : Script.Line) :
    FailsJust (readHeaderLine r line) .infiniteNumber
      (Text.lower line.key = "cc" ∧ (Text.trim line.value).HasInfiniteController) := by
  unfold readHeaderLine
  dsimp only
  by_cases key : Text.lower line.key = "cc"
  · have apart : ∀ other ∈ ["playlist", "bpm", "time", "transposition", "title", "by"],
        Text.of "cc" ≠ Text.of other := by decide
    simp only [key, if_true, true_and, apart "playlist" (by simp), apart "bpm" (by simp),
      apart "time" (by simp), apart "transposition" (by simp), apart "title" (by simp),
      apart "by" (by simp), if_false]
    exact (Text.readControllers_failsJust _).map _
  · refine ⟨fun both => absurd both.1 key, fun _ => ?_⟩
    rw [if_neg key]
    split_ifs
    · exact ⟨_, rfl⟩
    · split <;> exact ⟨_, rfl⟩
    · split <;> exact ⟨_, rfl⟩
    · split <;> exact ⟨_, rfl⟩
    · exact ⟨_, rfl⟩
    · exact ⟨_, rfl⟩
    · exact ⟨_, rfl⟩
    · exact ⟨_, rfl⟩

variable {settings : Settings}

theorem exists_readInstruments (numeric : settings.IsNumeric) (r : Reading)
    (s : Option Script.Section) : ∃ after, readInstruments settings r s = .ok after := by
  have declare (r : Reading) (name : Text) : ∃ after, declareInstrument settings r name = .ok after := by
    unfold declareInstrument
    split
    · exact ⟨_, rfl⟩
    · obtain ⟨velocity, read⟩ := Settings.exists_toInt numeric.instrumentVelocity
      rw [read]
      exact ⟨_, rfl⟩
  cases s with
  | none => exact ⟨_, rfl⟩
  | some s =>
    refine exists_foldlM (fun r line => ?_) s.lines r
    obtain ⟨declared, done⟩ := declare r line.key
    exact ⟨_, bind_eq_ok.2 ⟨declared, done, rfl⟩⟩

theorem hasSoundNumbers_add {s : SoundItems} (numbers : Settings.hasSoundNumbers s.modifiers = true)
    (line : Nat) (item : Text) : Settings.hasSoundNumbers (s.add line item).modifiers = true := by
  unfold SoundItems.add
  dsimp only
  split
  · exact numbers
  · split
    · split
      · exact Settings.hasSoundNumbers_insert numbers _ _
      · exact numbers
    · exact numbers

theorem exists_modifier {s : SoundItems} (numbers : Settings.hasSoundNumbers s.modifiers = true)
    {name : String} (known : name ∈ Settings.soundDefaults.map Prod.fst) :
    ∃ n, s.modifier name = .ok n := by
  obtain ⟨entry, listed, rfl⟩ := List.mem_map.1 known
  exact Settings.exists_toInt (List.all_eq_true.1 numbers entry listed)

theorem exists_modifierIn {s : SoundItems} (numbers : Settings.hasSoundNumbers s.modifiers = true)
    {name : String} (known : name ∈ Settings.soundDefaults.map Prod.fst) (low high : Int) :
    ∃ n, s.modifierIn low high name = .ok n := by
  obtain ⟨n, read⟩ := exists_modifier numbers known
  exact ⟨_, bind_eq_ok.2 ⟨n, read, rfl⟩⟩

theorem exists_defineSound {s : SoundItems} (numbers : Settings.hasSoundNumbers s.modifiers = true)
    (r : Reading) (line : Script.Line) (function : Text) (arguments : List Text) :
    ∃ after, defineSound r line s function arguments = .ok after := by
  unfold defineSound
  dsimp only
  split_ifs
  · obtain ⟨volume, read⟩ := exists_modifier numbers (by decide : "volume" ∈ _)
    rw [read]
    exact ⟨_, rfl⟩
  · exact ⟨_, rfl⟩
  · obtain ⟨spacing, step⟩ := exists_modifierIn numbers (by decide : "step" ∈ _) 2 24
    obtain ⟨duration, lasts⟩ := exists_modifierIn numbers (by decide : "duration" ∈ _) 2 24
    rw [step, lasts]
    exact ⟨_, rfl⟩
  · obtain ⟨delay, waits⟩ := exists_modifierIn numbers (by decide : "msec" ∈ _) 3 15
    obtain ⟨decay, fades⟩ := exists_modifierIn numbers (by decide : "vdec" ∈ _) 0 10
    rw [waits, fades]
    exact ⟨_, rfl⟩
  · exact ⟨_, rfl⟩

theorem exists_readSounds (numeric : settings.IsNumeric) (r : Reading) (s : Option Script.Section) :
    ∃ after, readSounds settings r s = .ok after := by
  cases s with
  | none => exact ⟨_, rfl⟩
  | some s =>
    refine exists_foldlM (fun r line => ?_) s.lines r
    unfold readSoundLine
    dsimp only
    split
    · refine exists_defineSound ?_ _ _ _ _
      exact List.foldlRecOn (motive := fun (s : SoundItems) =>
        Settings.hasSoundNumbers s.modifiers = true) _ _ numeric.sound
        fun _ numbers item _ => hasSoundNumbers_add numbers line.number item
    · exact ⟨_, rfl⟩

theorem exists_readMusic (numeric : settings.IsNumeric) (sections : List Script.Section)
    (r : Reading) : ∃ after, readMusic settings sections r = .ok after := by
  refine exists_foldlM (fun r name => ?_) _ r
  unfold readPlaylistItem
  split
  · exact ⟨_, rfl⟩
  · obtain ⟨depth, deep⟩ := Settings.exists_toInt numeric.maxDepth
    obtain ⟨velocity, loud⟩ := Settings.exists_toInt numeric.stepVelocity
    rw [readMusicalSection, deep, loud]
    exact ⟨_, rfl⟩

def HasInfiniteName (sections : List Script.Section) : Prop :=
  ∃ line ∈ ((Script.find? sections compositionName).map Script.Section.lines).getD [],
    Text.lower line.key = "cc" ∧ (Text.trim line.value).HasInfiniteController

instance (sections : List Script.Section) : Decidable (HasInfiniteName sections) :=
  inferInstanceAs (Decidable (∃ line ∈ _, _))

theorem beforeControl_failsJust (numeric : settings.IsNumeric) (sections : List Script.Section) :
    FailsJust (beforeControl settings sections) .infiniteNumber (HasInfiniteName sections) := by
  have header : FailsJust (readHeader {} (Script.find? sections compositionName)) .infiniteNumber
      (HasInfiniteName sections) := by
    unfold HasInfiniteName
    cases Script.find? sections compositionName with
    | none => exact ⟨by simp, fun _ => ⟨_, rfl⟩⟩
    | some s =>
      exact FailsJust.foldlM (fun _ => True) (fun _ _ => trivial)
        (fun r _ line _ => readHeaderLine_failsJust r line) trivial
  constructor
  · intro wrong
    rw [beforeControl, beforeMusic, header.fails wrong]
    rfl
  · intro right
    obtain ⟨titled, composed⟩ := header.works right
    obtain ⟨manned, instruments⟩ :=
      exists_readInstruments numeric titled (Script.find? sections instrumentsName)
    obtain ⟨named, sounds⟩ := exists_readSounds numeric
      (readSequences manned (Script.find? sections sequencesName)) (Script.find? sections soundsName)
    obtain ⟨filled, music⟩ := exists_readMusic numeric sections named
    refine ⟨filled, bind_eq_ok.2 ⟨named, ?_, music⟩⟩
    exact bind_eq_ok.2 ⟨titled, composed, bind_eq_ok.2 ⟨manned, instruments, sounds⟩⟩

/-! ### Control lines -/

def Overflows (c : Score) (line : Script.Line) : Prop :=
  ∃ target, ControlTarget.ofPath? line.path = some target ∧
    (c.section? (target.sectionIn c)).isSome = true ∧ target.message = "cc" ∧
      (Text.trim line.value).HasInfiniteController

theorem readControlChange_failsJust (controllers : Table Int) (line : Nat) (message value : Text) :
    FailsJust (ControlChange.read controllers line message value) .infiniteNumber
      (message = "cc" ∧ value.HasInfiniteController) := by
  unfold ControlChange.read
  by_cases key : message = "cc"
  · have apart : Text.of "cc" ≠ velocityMessage ∧ Text.of "cc" ≠ "program" := by decide
    simp only [key, apart.1, apart.2, if_false, if_true, true_and]
    exact (Text.readControllers_failsJust value).map _
  · refine ⟨fun both => absurd both.1 key, fun _ => ?_⟩
    rw [if_neg key]
    split_ifs
    · exact ⟨_, rfl⟩
    · split <;> exact ⟨_, rfl⟩
    · exact ⟨_, rfl⟩

theorem readControlLine_failsJust (r : Reading) (line : Script.Line) :
    FailsJust (readControlLine r line) .infiniteNumber (r.score.Overflows line) := by
  unfold readControlLine Overflows
  cases addressed : ControlTarget.ofPath? line.path with
  | none => exact ⟨by simp, fun _ => ⟨_, rfl⟩⟩
  | some target =>
    dsimp only
    cases found : r.score.section? (target.sectionIn r.score) with
    | none =>
      refine ⟨fun ⟨other, same, loaded, _⟩ => ?_, fun _ => ⟨_, rfl⟩⟩
      cases same
      simp [found] at loaded
    | some s =>
      have just := readControlChange_failsJust r.score.controllers line.number target.message
        (Text.trim line.value)
      constructor
      · intro ⟨other, same, _, wrong⟩
        cases same
        rw [just.fails wrong]
        rfl
      · intro right
        obtain ⟨⟨change, reports⟩, read⟩ :=
          just.works fun wrong => right ⟨target, rfl, by simp [found], wrong⟩
        rw [read]
        cases change <;> exact ⟨_, rfl⟩

theorem isSome_section? (c : Score) (name : Text) :
    (c.section? name).isSome = true ↔ name ∈ c.sections.map (·.name) := by
  simp [section?, List.find?_isSome]

theorem ControlTarget.sectionIn_eq (target : ControlTarget) (c : Score) :
    target.sectionIn c = target.sectionName.getD ((c.sections.map (·.name)).head?.getD []) := by
  simp [sectionIn]

theorem overflows_congr {c c' : Score} (names : c'.sections.map (·.name) = c.sections.map (·.name))
    (line : Script.Line) : c'.Overflows line ↔ c.Overflows line := by
  simp only [Overflows, isSome_section?, ControlTarget.sectionIn_eq, names]

theorem map_name_changeSection (name : Text) (target : ControlTarget) (change : ControlChange)
    (sections : List MusicalSection) :
    (changeSection name (applyChange target change) sections).map (·.name) =
      sections.map (·.name) := by
  induction sections with
  | nil => rfl
  | cons s rest ih =>
    unfold changeSection
    split
    · rfl
    · rw [List.map_cons, ih, List.map_cons]

theorem readControl_failsJust (r : Reading) (control : Option Script.Section) :
    FailsJust (readControl r control) .infiniteNumber
      (∃ line ∈ (control.map Script.Section.lines).getD [], r.score.Overflows line) := by
  cases control with
  | none => exact ⟨by simp, fun _ => ⟨_, rfl⟩⟩
  | some control =>
    refine FailsJust.foldlM
      (fun (now : Reading) => now.score.sections.map (·.name) = r.score.sections.map (·.name))
      (fun {now line after} names read => ?_) (fun now names line _ => ?_) rfl
    · rcases readControlLine_cases read with same | ⟨target, change, -, same⟩
      · rw [same, names]
      · rw [same, ← names]
        exact map_name_changeSection _ target change _
    · rw [← overflows_congr names]
      exact readControlLine_failsJust now line

def HasInfiniteController (settings : Settings) (sections : List Script.Section) : Prop :=
  HasInfiniteName sections ∨ ∃ r, beforeControl settings sections = .ok r ∧
    ∃ line ∈ controlLines sections, r.score.Overflows line

theorem ofSections_failsJust (numeric : settings.IsNumeric) (sections : List Script.Section) :
    FailsJust (ofSections settings sections) .infiniteNumber
      (HasInfiniteController settings sections) := by
  rw [ofSections_eq]
  have before := beforeControl_failsJust numeric sections
  constructor
  · intro wrong
    rcases wrong with named | ⟨r, read, wrong⟩
    · rw [before.fails named]
      rfl
    · rw [read]
      exact (readControl_failsJust r _).fails wrong
  · intro right
    obtain ⟨r, read⟩ := before.works fun named => right (.inl named)
    rw [read]
    exact (readControl_failsJust r _).works fun wrong => right (.inr ⟨r, read, wrong⟩)

end Score

end ScoreScript
