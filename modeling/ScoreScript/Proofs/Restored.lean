import Mathlib.Logic.Function.Iterate
import ScoreScript.Proofs.Totality

set_option autoImplicit false

namespace ScoreScript

namespace Selection

theorem flagFor_eq_false {name : Text} {earlier : Option (Text × Bool)} :
    flagFor name earlier = false ↔ earlier = some (name, false) := by
  cases earlier with
  | none => simp [flagFor]
  | some entry =>
    obtain ⟨old, selected⟩ := entry
    by_cases same : old = name <;> simp [flagFor, same]

theorem getElem?_restore (names : List Text) (earlier : List (Text × Bool)) (place : Nat) :
    (restore names earlier)[place]? = names[place]?.map fun name => (name, flagFor name earlier[place]?) := by
  induction names generalizing earlier place with
  | nil => rfl
  | cons name rest ih =>
    cases place with
    | zero => cases earlier <;> rfl
    | succ place => cases earlier <;> simp [restore, ih]

/-- The names stand in their order, and one is disabled just if it was disabled in its place before. -/
structure Restores (names : List Text) (earlier entries : List (Text × Bool)) : Prop where
  listed : entries.map Prod.fst = names
  disabled : ∀ (place : Nat) (name : Text), entries[place]? = some (name, false) ↔
    names[place]? = some name ∧ earlier[place]? = some (name, false)

theorem restores_restore (names : List Text) (earlier : List (Text × Bool)) :
    Restores names earlier (restore names earlier) := by
  refine ⟨map_fst_restore names earlier, fun place name => ?_⟩
  rw [getElem?_restore]
  constructor
  · intro found
    obtain ⟨other, stands, same⟩ := Option.map_eq_some_iff.1 found
    obtain ⟨rfl, flag⟩ := Prod.mk.inj same
    exact ⟨stands, flagFor_eq_false.1 flag⟩
  · rintro ⟨stands, off⟩
    rw [stands, Option.map_some, flagFor_eq_false.2 off]

theorem restore_map_fst (entries : List (Text × Bool)) : restore (entries.map Prod.fst) entries = entries := by
  induction entries with
  | nil => rfl
  | cons entry rest ih => simp [restore, flagFor, ih]

structure Fits (s : Selection) (c : Score) : Prop where
  instruments : s.instruments.map Prod.fst = c.instruments.map (·.name)
  playlist : s.playlist.map Prod.fst = c.playlist.map (·.name)

variable {s : Selection} {c : Score}

theorem fits_after (c : Score) (earlier : Option Selection) : (after c earlier).Fits c := by
  cases earlier with
  | none => constructor <;> simp [after, ofScore, Function.comp_def]
  | some earlier => exact ⟨map_fst_restore _ _, map_fst_restore _ _⟩

theorem Fits.after_eq (fits : s.Fits c) : after c (some s) = s := by
  simp only [after, merge, ← fits.instruments, ← fits.playlist, restore_map_fst]

theorem zipWith_of_names {α : Type} {name : α → Text} (flag : α → Bool) (set : α → Text × Bool → α)
    (kept : ∀ a entry, name (set a entry) = name a) (flagged : ∀ a entry, flag (set a entry) = entry.2)
    {items : List α} {entries : List (Text × Bool)} (names : entries.map Prod.fst = items.map name) :
    (items.zipWith set entries).map (fun a => (name a, flag a)) = entries := by
  induction items generalizing entries with
  | nil => simpa using names.symm
  | cons a rest ih =>
    cases entries with
    | nil => simp at names
    | cons entry others =>
      obtain ⟨here, later⟩ := List.cons.inj names
      rw [List.zipWith_cons_cons, List.map_cons, ih later, kept, flagged, ← here]

theorem Fits.ofScore_apply (fits : s.Fits c) : ofScore (s.apply c) = s := by
  have instruments := zipWith_of_names Instrument.selected (fun i entry => { i with selected := entry.2 })
    (fun _ _ => rfl) (fun _ _ => rfl) fits.instruments
  have playlist := zipWith_of_names PlaylistItem.selected
    (fun item entry => { item with selected := entry.2 }) (fun _ _ => rfl) (fun _ _ => rfl) fits.playlist
  simp only [ofScore, apply, instruments, playlist]

theorem Fits.names_apply (fits : s.Fits c) :
    (s.apply c).instruments.map (·.name) = c.instruments.map (·.name) ∧
      (s.apply c).playlist.map (·.name) = c.playlist.map (·.name) := by
  have same := fits.ofScore_apply
  constructor
  · rw [← fits.instruments, ← congrArg Selection.instruments same]
    simp [ofScore, Function.comp_def]
  · rw [← fits.playlist, ← congrArg Selection.playlist same]
    simp [ofScore, Function.comp_def]

theorem ofDocument_toDocument (s : Selection) : ofDocument (some s.toDocument) = .ok s := by
  have first : Table.find? [(Text.of "instruments", listOf s.instruments), (Text.of "playlist", listOf s.playlist)]
      "instruments" = some (listOf s.instruments) := rfl
  have second : Table.find? [(Text.of "instruments", listOf s.instruments), (Text.of "playlist", listOf s.playlist)]
      "playlist" = some (listOf s.playlist) := rfl
  simp only [ofDocument, toDocument, first, second, Option.getD_some, entriesOf_listOf]
  rfl

end Selection

namespace Score

open Fault

structure IsFresh (c : Score) : Prop where
  instruments : ∀ i ∈ c.instruments, i.selected = true
  playlist : ∀ item ∈ c.playlist, item.selected = true

variable {settings : Settings} {r after : Reading}

theorem isFresh_readHeaderLine {line : Script.Line} (fresh : r.score.IsFresh)
    (read : readHeaderLine r line = .ok after) : after.score.IsFresh := by
  have added : ∀ item ∈ playlistOf line, item.selected = true := by
    rintro item listed
    obtain ⟨name, -, rfl⟩ := List.mem_map.1 listed
    rfl
  unfold readHeaderLine at read
  dsimp only at read
  split_ifs at read
  · cases read
    exact ⟨fresh.instruments, List.forall_mem_append.2 ⟨fresh.playlist, added⟩⟩
  · split at read <;> cases read <;> exact ⟨fresh.instruments, fresh.playlist⟩
  · split at read <;> cases read <;> exact ⟨fresh.instruments, fresh.playlist⟩
  · split at read <;> cases read <;> exact ⟨fresh.instruments, fresh.playlist⟩
  · cases read; exact ⟨fresh.instruments, fresh.playlist⟩
  · cases read; exact ⟨fresh.instruments, fresh.playlist⟩
  · obtain ⟨names, -, entered⟩ := bind_eq_ok.1 read
    cases entered
    split_ifs <;> exact ⟨fresh.instruments, fresh.playlist⟩
  · cases read; exact fresh
  · cases read; exact fresh

theorem isFresh_readInstrumentItem (fresh : r.score.IsFresh) (name : Text) (line : Nat) (item : Text) :
    (readInstrumentItem name line r item).score.IsFresh := by
  have kept {change : Instrument → Instrument} (flag : ∀ i, (change i).selected = i.selected) :
      ∀ i ∈ changeInstrument name change r.score.instruments, i.selected = true :=
    forall_changeInstrument (fun i on => (flag i).trans on) fresh.instruments
  unfold readInstrumentItem
  dsimp only
  split
  · exact ⟨kept fun _ => rfl, fresh.playlist⟩
  · exact ⟨kept fun _ => rfl, fresh.playlist⟩
  · exact ⟨kept fun _ => rfl, fresh.playlist⟩
  · exact ⟨kept fun _ => rfl, fresh.playlist⟩
  · exact fresh
  · exact fresh
  · exact fresh

theorem isFresh_readInstrumentLine {line : Script.Line} (fresh : r.score.IsFresh)
    (read : readInstrumentLine settings r line = .ok after) : after.score.IsFresh := by
  obtain ⟨declared, entered, items⟩ := bind_eq_ok.1 read
  cases items
  have start : declared.score.IsFresh := by
    rcases declareInstrument_cases entered with same | ⟨velocity, -, -, same⟩ <;> rw [same]
    · exact fresh
    · refine ⟨List.forall_mem_append.2 ⟨fresh.instruments, ?_⟩, fresh.playlist⟩
      exact List.forall_mem_singleton.2 rfl
  exact List.foldlRecOn (motive := fun (now : Reading) => now.score.IsFresh) line.items _ start
    fun _ before item _ => isFresh_readInstrumentItem before line.key line.number item

theorem isFresh_readSoundLine {line : Script.Line} (fresh : r.score.IsFresh)
    (read : readSoundLine settings r line = .ok after) : after.score.IsFresh := by
  unfold readSoundLine at read
  dsimp only at read
  split at read
  · rcases defineSound_cases read with ⟨samples, literals, same⟩ | ⟨ornament, -, same⟩ | same <;> rw [same]
    · exact ⟨fresh.instruments, fresh.playlist⟩
    · exact ⟨fresh.instruments, fresh.playlist⟩
    · exact fresh
  · cases read; exact fresh

theorem isFresh_beforeMusic {sections : List Script.Section} (read : beforeMusic settings sections = .ok r) :
    r.score.IsFresh := by
  obtain ⟨titled, header, read⟩ := bind_eq_ok.1 read
  obtain ⟨manned, instruments, sounds⟩ := bind_eq_ok.1 read
  have start : ({} : Score).IsFresh := ⟨by simp, by simp⟩
  have composed : titled.score.IsFresh := by
    unfold readHeader at header
    split at header
    · cases header; exact start
    · exact foldlM_invariant (·.score.IsFresh) isFresh_readHeaderLine start header
  have staffed : manned.score.IsFresh := by
    unfold readInstruments at instruments
    split at instruments
    · cases instruments; exact composed
    · exact foldlM_invariant (·.score.IsFresh) isFresh_readInstrumentLine composed instruments
  have sequenced : (readSequences manned (Script.find? sections sequencesName)).score.IsFresh := by
    unfold readSequences
    split <;> exact ⟨staffed.instruments, staffed.playlist⟩
  unfold readSounds at sounds
  split at sounds
  · cases sounds; exact sequenced
  · exact foldlM_invariant (·.score.IsFresh) isFresh_readSoundLine sequenced sounds

theorem isFresh_ofSections {sections : List Script.Section} (read : ofSections settings sections = .ok r) :
    r.score.IsFresh := by
  obtain ⟨composed, musical, before, same⟩ := exists_beforeMusic read
  have fresh := isFresh_beforeMusic before
  rw [same]
  exact ⟨fresh.instruments, fresh.playlist⟩

theorem IsFresh.after_eq {c : Score} (fresh : c.IsFresh) (earlier : Option Selection) :
    Selection.after c earlier =
      Selection.merge (c.instruments.map (·.name)) (c.playlist.map (·.name)) (earlier.getD {}) := by
  have enabled (names : List Text) : Selection.restore names [] = names.map fun name => (name, true) := by
    induction names with
    | nil => rfl
    | cons name rest ih => simp [Selection.restore, Selection.flagFor, ih]
  cases earlier with
  | some earlier => rfl
  | none =>
    simp only [Selection.after, Selection.ofScore, Option.getD_none, Selection.merge, enabled, List.map_map]
    congr 1
    · exact List.map_congr_left fun i member => by simp [fresh.instruments i member]
    · exact List.map_congr_left fun item member => by simp [fresh.playlist item member]

end Score

namespace Compilation

open Fault

variable {settings : Settings} {earlier : Option Selection} {text : Text} {c : Compilation}

def reloaded (settings : Settings) (text : Text) (c : Compilation) : Except Fault Compilation := do
  ofText settings (some (← Selection.ofDocument (some c.selection.toDocument))) text

theorem reloaded_eq (settings : Settings) (text : Text) (c : Compilation) :
    reloaded settings text c = ofText settings (some c.selection) text := by
  rw [reloaded, Selection.ofDocument_toDocument]
  rfl

/-- A compilation has the flags of the earlier selection where its names still stand in their places. Saving
them, loading them and compiling again changes nothing, however often it is done. -/
theorem selection_survives_reload (compiled : ofText settings earlier text = .ok c) :
    c.selection = Selection.ofScore c.score ∧
      Selection.Restores (c.score.instruments.map (·.name)) (earlier.getD {}).instruments
        c.selection.instruments ∧
      Selection.Restores (c.score.playlist.map (·.name)) (earlier.getD {}).playlist c.selection.playlist ∧
      ofText settings (some c.selection) text = .ok c ∧
      ∀ times : Nat, (· >>= reloaded settings text)^[times] (.ok c) = .ok c := by
  rw [ofText_eq] at compiled
  obtain ⟨r, read, timed⟩ := bind_eq_ok.1 compiled
  obtain ⟨timeline, laid, same⟩ := bind_eq_ok.1 timed
  cases same
  have fits := Selection.fits_after r.score earlier
  have names := fits.names_apply
  have merged := (Score.isFresh_ofSections read).after_eq earlier
  -- the selection has the names of the score, so merging it with them gives it back
  have again : ofText settings (some (Selection.after r.score earlier)) text = ofText settings earlier text := by
    simp only [ofText_eq, read, bind, Except.bind, Score.restore, fits.after_eq]
  refine ⟨fits.ofScore_apply.symm, ?_, ?_, again.trans compiled, fun times => ?_⟩
  · rw [Score.restore, names.1, merged]
    exact Selection.restores_restore ..
  · rw [Score.restore, names.2, merged]
    exact Selection.restores_restore ..
  · refine Function.iterate_fixed ?_ times
    exact (reloaded_eq settings text _).trans (again.trans compiled)

def encore : Text :=
  "[composition]\nplaylist:a,b,a,a\n[instruments]\ns:octave=3\n[a]\ns:1 3\n[b]\ns:5"

def otherEvening : Selection :=
  { instruments := [("t", false)]
    playlist := [("a", false), ("a", false), ("a", false), ("c", false), ("a", false)] }

theorem encore_selection : ∃ c, ofText bareSettings (some otherEvening) encore = .ok c ∧
    c.selection =
      { instruments := [("s", true)]
        playlist := [("a", false), ("b", true), ("a", false), ("a", true)] } ∧
    ∀ times : Nat, (· >>= reloaded bareSettings encore)^[times] (.ok c) = .ok c := by
  have compiles : ((ofText bareSettings (some otherEvening) encore).toOption.any fun c =>
      c.selection =
        { instruments := [("s", true)]
          playlist := [("a", false), ("b", true), ("a", false), ("a", true)] }) = true := by
    decide +kernel
  obtain ⟨c, compiled, flags⟩ := exists_ok_of_any compiles
  exact ⟨c, compiled, of_decide_eq_true flags, (selection_survives_reload compiled).2.2.2.2⟩

end Compilation

end ScoreScript
