import ScoreScript.Proofs.Blocking
import ScoreScript.Proofs.KeyCase

set_option autoImplicit false

namespace ScoreScript

open Fault

def Diagnostic.Relined (line line' : Nat) (d d' : Diagnostic) : Prop :=
  d = d' ∨ d.kind = .undefinedSection ∧ d.line = line ∧ d' = { d with line := line' }

theorem Diagnostic.Relined.eq {line : Nat} {d d' : Diagnostic} (relined : Relined line line d d') : d = d' := by
  obtain same | ⟨-, here, same⟩ := relined
  · exact same
  · rw [same, ← here]

namespace Score

open Script

variable {settings : Settings} {sections sections' : List Section}

theorem readHeaderLine_recased {line line' : Line} (recased : line.Recased line') (r : Reading) :
    readHeaderLine r line = readHeaderLine r line' := by
  obtain ⟨key, value, number⟩ := line
  obtain ⟨key', value', number'⟩ := line'
  obtain ⟨same | ⟨small, known⟩, rfl, rfl⟩ := recased
  · obtain rfl : key = key' := same
    rfl
  · have small : Text.lower key = Text.lower key' := small
    unfold readHeaderLine
    dsimp only
    rw [small]
    split_ifs with playlist bpm time transposition title author controllers info
    case neg =>
      -- a key that is not known is not written in another case
      refine absurd known ?_
      change Text.lower key ∉ headerKeys
      rw [small]
      simp [headerKeys, playlist, bpm, time, transposition, title, author, controllers, info]
    all_goals rfl

theorem readHeaderLines_recased {lines lines' : List Line} (recased : List.Forall₂ Line.Recased lines lines')
    (r : Reading) : lines.foldlM readHeaderLine r = lines'.foldlM readHeaderLine r := by
  induction recased generalizing r with
  | nil => rfl
  | cons here _ ih =>
    rw [List.foldlM_cons, List.foldlM_cons, readHeaderLine_recased here]
    exact bind_congr ih

variable (recased : List.Forall₂ Section.Recased sections sections')

include recased

theorem find?_recased (name : Text) (other : ¬HasHeaderLines name) :
    Script.find? sections name = Script.find? sections' name := by
  have found := find?_related Section.Recased.name recased name
  generalize Script.find? sections name = s, Script.find? sections' name = s' at found
  cases found with
  | none => rfl
  | @some s s' here =>
    obtain ⟨rfl, here⟩ := here
    have same := here.same other
    obtain ⟨name, number, lines⟩ := s
    obtain ⟨name', number', lines'⟩ := s'
    obtain ⟨rfl, rfl, -⟩ := here
    obtain rfl : lines = lines' := same
    rfl

theorem isSome_find?_recased (name : Text) :
    (Script.find? sections name).isSome = (Script.find? sections' name).isSome := by
  have found := find?_related Section.Recased.name recased name
  generalize Script.find? sections name = s, Script.find? sections' name = s' at found
  cases found <;> rfl

theorem readHeader_recased (r : Reading) :
    readHeader r (Script.find? sections compositionName) =
      readHeader r (Script.find? sections' compositionName) := by
  have found := find?_related Section.Recased.name recased compositionName
  generalize Script.find? sections compositionName = s, Script.find? sections' compositionName = s' at found
  cases found with
  | none => rfl
  | some here => exact readHeaderLines_recased here.2.lines r

theorem beforeMusic_recased (settings : Settings) :
    beforeMusic settings sections = beforeMusic settings sections' := by
  rw [beforeMusic, beforeMusic, readHeader_recased recased, find?_recased recased instrumentsName (by decide),
    find?_recased recased sequencesName (by decide), find?_recased recased soundsName (by decide)]

omit recased

def readMusicAt (settings : Settings) (sections : List Section) (line : Nat) (r : Reading) :
    Except Fault Reading :=
  (playedNames r.score).foldlM (readPlaylistItem settings sections line) r

def ofSectionsAt (settings : Settings) (sections : List Section) (line : Nat) : Except Fault Reading := do
  let played ← readMusicAt settings sections line (← beforeMusic settings sections)
  readControl played (Script.find? sections controlName)

theorem ofSections_eq_at (settings : Settings) (sections : List Section) :
    ofSections settings sections = ofSectionsAt settings sections (playlistLine sections) := by
  rw [ofSections_eq, beforeControl, bind_assoc]
  rfl

theorem foldlM_congr_of_mem {α σ : Type} {step step' : σ → α → Except Fault σ} {items : List α}
    (same : ∀ item ∈ items, ∀ state, step state item = step' state item) (state : σ) :
    items.foldlM step state = items.foldlM step' state := by
  induction items generalizing state with
  | nil => rfl
  | cons item rest ih =>
    obtain ⟨here, later⟩ := List.forall_mem_cons.1 same
    rw [List.foldlM_cons, List.foldlM_cons, here]
    exact bind_congr (ih later)

def PlaysHeader (settings : Settings) (sections : List Section) : Prop :=
  ∃ r, beforeMusic settings sections = .ok r ∧ ∃ item ∈ r.score.playlist, HasHeaderLines item.name

theorem ofSectionsAt_congr {line line' : Nat}
    (before : beforeMusic settings sections = beforeMusic settings sections')
    (control : Script.find? sections controlName = Script.find? sections' controlName)
    (items : ∀ r, beforeMusic settings sections = .ok r → ∀ item ∈ r.score.playlist, ∀ now,
      readPlaylistItem settings sections line now item.name =
        readPlaylistItem settings sections' line' now item.name) :
    ofSectionsAt settings sections line = ofSectionsAt settings sections' line' := by
  rw [ofSectionsAt, ofSectionsAt, ← before, ← control]
  cases read : beforeMusic settings sections with
  | error fault => rfl
  | ok r =>
    have music : readMusicAt settings sections line r = readMusicAt settings sections' line' r := by
      refine foldlM_congr_of_mem (fun name played now => ?_) r
      obtain ⟨item, listed, rfl⟩ := List.mem_map.1 (List.mem_eraseDups.1 played)
      exact items r read item listed now
    change (readMusicAt settings sections line r >>= _) = (readMusicAt settings sections' line' r >>= _)
    rw [music]

theorem ofSections_recased (recased : List.Forall₂ Section.Recased sections sections')
    (apart : ¬PlaysHeader settings sections) :
    ofSections settings sections' = ofSectionsAt settings sections (playlistLine sections') := by
  rw [ofSections_eq_at]
  refine (ofSectionsAt_congr (beforeMusic_recased recased settings)
    (find?_recased recased controlName (by decide)) fun r before item listed now => ?_).symm
  have other : ¬HasHeaderLines item.name := fun header => apart ⟨r, before, item, listed, header⟩
  rw [readPlaylistItem, readPlaylistItem, find?_recased recased item.name other]

structure Reading.Relined (line line' : Nat) (r r' : Reading) : Prop where
  score : r.score = r'.score
  reports : List.Forall₂ (Diagnostic.Relined line line') r.reports r'.reports

section

variable {line line' : Nat} {r r' : Reading}

theorem forall₂_relined_refl (reports : List Diagnostic) :
    List.Forall₂ (Diagnostic.Relined line line') reports reports :=
  List.forall₂_same.2 fun _ _ => .inl rfl

theorem relined_readPlaylistItem (relined : r.Relined line line' r') (name : Text) :
    Alike (Reading.Relined line line') (readPlaylistItem settings sections line r name)
      (readPlaylistItem settings sections line' r' name) := by
  obtain ⟨score, reports⟩ := relined
  unfold readPlaylistItem
  rw [score]
  split
  · exact .ok ⟨score, List.rel_append reports (.cons (.inr ⟨rfl, rfl, rfl⟩) .nil)⟩
  · exact .bind_same fun music => .ok ⟨rfl, List.rel_append reports (forall₂_relined_refl _)⟩

theorem relined_readControlLine (relined : r.Relined line line' r') (control : Line) :
    Alike (Reading.Relined line line') (readControlLine r control) (readControlLine r' control) := by
  obtain ⟨score, reports⟩ := relined
  unfold readControlLine
  dsimp only
  rw [score]
  split
  · exact .ok ⟨score, List.rel_append reports (forall₂_relined_refl _)⟩
  · split
    · exact .ok ⟨score, List.rel_append reports (forall₂_relined_refl _)⟩
    · refine .bind_same fun asked => ?_
      have more := List.rel_append reports (forall₂_relined_refl asked.2)
      obtain ⟨change | change, added⟩ := asked
      · exact .ok ⟨rfl, more⟩
      · exact .ok ⟨rfl, more⟩

theorem relined_ofSectionsAt (settings : Settings) (sections : List Section) (line line' : Nat) :
    Alike (Reading.Relined line line') (ofSectionsAt settings sections line)
      (ofSectionsAt settings sections line') := by
  refine .bind_same fun r => ?_
  have music : Alike (Reading.Relined line line') (readMusicAt settings sections line r)
      (readMusicAt settings sections line' r) :=
    Alike.foldlM (R := Eq) (fun relined same => by rw [same]; exact relined_readPlaylistItem relined _)
      (List.forall₂_same.2 fun _ _ => rfl) ⟨rfl, forall₂_relined_refl _⟩
  refine music.bind fun relined => ?_
  cases Script.find? sections controlName with
  | none => exact .ok relined
  | some control =>
    exact Alike.foldlM (R := Eq) (fun relined same => by rw [same]; exact relined_readControlLine relined _)
      (List.forall₂_same.2 fun _ _ => rfl) relined

end

def IsStaged (sections : List Section) (c : Score) : Prop :=
  ∀ item ∈ c.playlist, ∃ s ∈ sections, s.name = item.name

theorem isStaged_iff {c : Score} :
    c.IsStaged sections ↔ ∀ name ∈ c.playlist.map (·.name), ∃ s ∈ sections, s.name = name := by
  simp [IsStaged]

theorem ofSectionsAt_of_isStaged
    (staged : ∀ r, beforeMusic settings sections = .ok r → r.score.IsStaged sections) (line line' : Nat) :
    ofSectionsAt settings sections line = ofSectionsAt settings sections line' := by
  refine ofSectionsAt_congr rfl rfl fun r before item listed now => ?_
  obtain ⟨s, found⟩ := Option.isSome_iff_exists.1 ((isSome_find? sections _).2 (staged r before item listed))
  rw [readPlaylistItem, readPlaylistItem, found]

section

variable (recased : List.Forall₂ Section.Recased sections sections')

include recased

theorem playlistLine_eq_of_reports {r r' : Reading} (read : ofSections settings sections = .ok r)
    (read' : ofSections settings sections' = .ok r') (score : r.score = r'.score)
    (reports : r.reports = r'.reports) (gap : ¬r.score.IsStaged sections) :
    playlistLine sections = playlistLine sections' := by
  have missed (name : Text) : missing name (Script.find? sections name) =
      missing name (Script.find? sections' name) := by
    rw [missing, missing, isSome_find?_recased recased]
  have control : controlLines sections = controlLines sections' := by
    rw [controlLines, controlLines, find?_recased recased controlName (by decide)]
  have blocked := (blocking_ofSections read).1.symm.trans
    ((congrArg Diagnostic.blocking reports).trans (blocking_ofSections read').1)
  rw [structureReports, structureReports, missed, missed, control, score] at blocked
  have played := List.append_cancel_left (List.append_cancel_right blocked)
  rw [IsStaged] at gap
  push Not at gap
  obtain ⟨item, listed, absent⟩ := gap
  have unknown : Script.find? sections item.name = none := List.find?_eq_none.2 (by simpa using absent)
  have reported : ⟨.undefinedSection, item.name, playlistLine sections⟩ ∈
      (playedNames r'.score).flatMap (unplayed sections) := by
    refine List.mem_flatMap.2 ⟨item.name, ?_, by simp [unplayed, unknown]⟩
    exact List.mem_eraseDups.2 (List.mem_map_of_mem (score ▸ listed))
  rw [played] at reported
  obtain ⟨name, -, there⟩ := List.mem_flatMap.1 reported
  unfold unplayed at there
  split at there
  · cases there
  · have same := congrArg Diagnostic.line (List.mem_singleton.1 there)
    exact Int.ofNat_inj.1 same

theorem alike_ofRecasedSections (apart : ¬PlaysHeader settings sections) :
    Alike (fun r r' => r.Relined (playlistLine sections) (playlistLine sections') r' ∧
        (r.reports = r'.reports ↔
          playlistLine sections = playlistLine sections' ∨ r.score.IsStaged sections))
      (ofSections settings sections) (ofSections settings sections') := by
  have alike := relined_ofSectionsAt settings sections (playlistLine sections) (playlistLine sections')
  rw [← ofSections_eq_at, ← ofSections_recased recased apart] at alike
  generalize read : ofSections settings sections = outcome,
    read' : ofSections settings sections' = outcome' at alike
  cases alike with
  | error fault => exact .error fault
  | @ok r r' relined =>
    refine .ok ⟨relined, fun same => ?_, ?_⟩
    · by_cases staged : r.score.IsStaged sections
      · exact .inr staged
      · exact .inl (playlistLine_eq_of_reports recased read read' relined.score same staged)
    · rintro (line | staged)
      · have reports := relined.reports
        rw [line] at reports
        exact List.forall₂_eq_eq_eq ▸ reports.imp fun _ _ => Diagnostic.Relined.eq
      · obtain ⟨composed, musical, before, same⟩ := exists_beforeMusic read
        have whole : ∀ now, beforeMusic settings sections = .ok now → now.score.IsStaged sections := by
          intro now before'
          rw [before] at before'
          cases before'
          rw [same] at staged
          exact staged
        rw [ofSections_eq_at, ofSectionsAt_of_isStaged whole _ (playlistLine sections'),
          ← ofSections_recased recased apart, read'] at read
        cases read
        rfl

end

end Score

namespace Compilation

open Score

/-- Keys of the composition may be written in any case, as long as the composition is not played as music: a
script fails for the same reason, or compiles to the same score, timeline and selection. The reports are the same
just if the line of the playlist is found in both scripts, or not needed. -/
theorem keys_in_any_case (settings : Settings) (earlier : Option Selection) {text text' : Text}
    (recased : Script.Recased text text') (apart : ¬PlaysHeader settings (Script.parse text).1) :
    Alike (fun c c' => (c.score = c'.score ∧ c.timeline = c'.timeline ∧ c.selection = c'.selection) ∧
        List.Forall₂ (Diagnostic.Relined (playlistLine (Script.parse text).1)
          (playlistLine (Script.parse text').1)) c.reports c'.reports ∧
        (c.reports = c'.reports ↔ playlistLine (Script.parse text).1 = playlistLine (Script.parse text').1 ∨
          c.score.IsStaged (Script.parse text).1))
      (ofText settings earlier text) (ofText settings earlier text') := by
  obtain ⟨sections, parsed⟩ := recased.parse
  rw [ofText_eq, ofText_eq]
  refine (alike_ofRecasedSections sections apart).bind fun {r r'} ⟨relined, reports⟩ => ?_
  rw [← relined.score, ← parsed]
  refine .bind_same fun timeline => .ok ⟨⟨rfl, rfl, rfl⟩, ?_, ?_⟩
  · exact List.rel_append (forall₂_relined_refl _) relined.reports
  · have names := (Selection.fits_after r.score earlier).names_apply.2
    have staged : (r.score.restore earlier).IsStaged (Script.parse text).1 ↔
        r.score.IsStaged (Script.parse text).1 := by
      rw [isStaged_iff, Score.restore, names, ← isStaged_iff]
    dsimp only
    rw [List.append_cancel_left_eq, reports, staged]

def carolWith (playlist bpm : Text) : Text :=
  "[composition]\n" ++ playlist ++ ":a,b\n" ++ bpm ++ ":90\n[instruments]\ns:x\n[a]\ns:b"

theorem recased_carol : Script.Recased (carolWith "playlist" "bpm") (carolWith "Playlist" "BPM") := by
  have lines : (carolWith "playlist" "bpm").splitOn (.char '\n') =
      ["[composition]", "playlist:a,b", "bpm:90", "[instruments]", "s:x", "[a]", "s:b"] := by decide +kernel
  have lines' : (carolWith "Playlist" "BPM").splitOn (.char '\n') =
      ["[composition]", "Playlist:a,b", "BPM:90", "[instruments]", "s:x", "[a]", "s:b"] := by decide +kernel
  have playlist : Script.RecasesKey "playlist:a,b" "Playlist:a,b" :=
    ⟨[], "playlist", "Playlist", [], "a,b", by simp [Text.AllBlank], by simp [Text.AllBlank], by decide,
      by decide, rfl, rfl⟩
  have bpm : Script.RecasesKey "bpm:90" "BPM:90" :=
    ⟨[], "bpm", "BPM", [], "90", by simp [Text.AllBlank], by simp [Text.AllBlank], by decide, by decide, rfl,
      rfl⟩
  have opened : Script.openedBy none "[composition]" = some compositionName := by decide
  rw [Script.Recased, lines, lines']
  refine .same _ ?_
  rw [opened]
  exact .recased playlist (.recased bpm (.refl _ _))

theorem keys_in_any_case_of_carol : ∃ c c', ofText bareSettings none (carolWith "playlist" "bpm") = .ok c ∧
    ofText bareSettings none (carolWith "Playlist" "BPM") = .ok c' ∧ c.score.bpm = 90 ∧ c.score = c'.score ∧
    c.timeline = c'.timeline ∧ c.reports ≠ c'.reports := by
  have silent : ((beforeMusic bareSettings (Script.parse (carolWith "playlist" "bpm")).1).toOption.all fun r =>
      r.score.playlist.all fun item => !decide (Script.HasHeaderLines item.name)) = true := by
    decide +kernel
  have apart : ¬PlaysHeader bareSettings (Script.parse (carolWith "playlist" "bpm")).1 := by
    rintro ⟨r, read, item, listed, header⟩
    rw [read] at silent
    simpa [header] using List.all_eq_true.1 silent item listed
  have compiles : ((ofText bareSettings none (carolWith "playlist" "bpm")).toOption.any fun c =>
      c.score.bpm = 90 ∧ ⟨"b", true⟩ ∈ c.score.playlist) = true := by
    decide +kernel
  have moved : playlistLine (Script.parse (carolWith "playlist" "bpm")).1 ≠
      playlistLine (Script.parse (carolWith "Playlist" "BPM")).1 := by
    decide +kernel
  have gap : ¬∃ s ∈ (Script.parse (carolWith "playlist" "bpm")).1, s.name = "b" := by decide +kernel
  obtain ⟨c, compiled, seen⟩ := exists_ok_of_any compiles
  obtain ⟨bpm, listed⟩ := of_decide_eq_true seen
  have alike := keys_in_any_case bareSettings none recased_carol apart
  rw [compiled] at alike
  generalize compiled' : ofText bareSettings none (carolWith "Playlist" "BPM") = outcome at alike
  cases alike with
  | @ok _ c' related =>
    obtain ⟨⟨score, timeline, -⟩, -, reports⟩ := related
    refine ⟨c, c', compiled, rfl, bpm, score, timeline, fun same => ?_⟩
    rcases reports.1 same with line | staged
    · exact moved line
    · exact gap (staged _ listed)

example : (ofText bareSettings none "[composition]\nplaylist:composition\nby:b").toOption.map (·.score.sections) ≠
    (ofText bareSettings none "[composition]\nplaylist:composition\nBy:b").toOption.map (·.score.sections) := by
  decide +kernel

theorem capitalized_playlist_has_no_line : ∃ c c', packaged (carolWith "playlist" "bpm") = .ok c ∧
    packaged (carolWith "Playlist" "BPM") = .ok c' ∧
    Script.Recased (carolWith "playlist" "bpm") (carolWith "Playlist" "BPM") ∧
    c.reports = [⟨.undefinedSection, "b", 2⟩] ∧ c'.reports = [⟨.undefinedSection, "b", 0⟩] := by
  have found : ((packaged (carolWith "playlist" "bpm")).toOption.any fun c =>
      c.reports = [⟨.undefinedSection, "b", 2⟩]) = true := by
    decide +kernel
  have lost : ((packaged (carolWith "Playlist" "BPM")).toOption.any fun c =>
      c.reports = [⟨.undefinedSection, "b", 0⟩]) = true := by
    decide +kernel
  obtain ⟨c, compiled, reports⟩ := exists_ok_of_any found
  obtain ⟨c', compiled', reports'⟩ := exists_ok_of_any lost
  exact ⟨c, c', compiled, compiled', recased_carol, of_decide_eq_true reports, of_decide_eq_true reports'⟩

end Compilation

end ScoreScript
