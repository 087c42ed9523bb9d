import ScoreScript.Proofs.Continuation
import ScoreScript.Proofs.LineOrder
import ScoreScript.Proofs.Playlist

set_option autoImplicit false

namespace ScoreScript

namespace Script

inductive Exchanged (movable : Line → Prop) : List Line → List Line → Prop where
  | nil : Exchanged movable [] []
  | keep {line line' : Line} {lines lines' : List Line} (same : line.Same line')
    (rest : Exchanged movable lines lines') : Exchanged movable (line :: lines) (line' :: lines')
  | exchange {a a' b b' : Line} {lines lines' : List Line} (apart : a.key ≠ b.key) (first : movable a)
    (second : movable b) (same : a.Same a') (same' : b.Same b') (rest : Exchanged movable lines lines') :
    Exchanged movable (a :: b :: lines) (b' :: a' :: lines')

variable {movable : Line → Prop} {lines lines' more more' : List Line}

theorem Exchanged.append (exchanged : Exchanged movable lines lines')
    (exchanged' : Exchanged movable more more') : Exchanged movable (lines ++ more) (lines' ++ more') := by
  induction exchanged with
  | nil => exact exchanged'
  | keep same _ ih => exact .keep same ih
  | exchange apart first second same same' _ ih => exact .exchange apart first second same same' ih

theorem Exchanged.filter_key (keeps : Text → Bool) (exchanged : Exchanged movable lines lines') :
    Exchanged movable (lines.filter (keeps ·.key)) (lines'.filter (keeps ·.key)) := by
  induction exchanged with
  | nil => exact .nil
  | keep same _ ih =>
    simp only [List.filter_cons, ← same.key]
    split
    · exact .keep same ih
    · exact ih
  | exchange apart first second same same' _ ih =>
    simp only [List.filter_cons, ← same.key, ← same'.key]
    split <;> split
    · exact .exchange apart first second same same' ih
    · exact .keep same ih
    · exact .keep same' ih
    · exact ih

theorem Exchanged.refl (lines : List Line) : Exchanged movable lines lines := by
  induction lines with
  | nil => exact .nil
  | cons line rest ih => exact .keep ⟨rfl, rfl⟩ ih

structure Section.Exchanged (movable : Line → Prop) (s s' : Section) : Prop where
  name : s.name = s'.name
  lines : Script.Exchanged movable s.lines s'.lines
  reserved : s.name ∈ Score.reservedNames → s.SameLines s'

theorem Section.Exchanged.refl (s : Section) : s.Exchanged movable s :=
  ⟨rfl, .refl s.lines, fun _ => .refl s⟩

end Script

namespace Score

open Fault MusicalSection Script

variable {settings : Settings} {c : Score} {stepVelocity : Int} {depth : Nat} {movable : Line → Prop}
  {sections sections' : List Section}

theorem foldl_readMusicLine_exchanged
    (independent : ∀ line, movable line → line.IsIndependent c.sequences depth) {lines lines' : List Line}
    (exchanged : Exchanged movable lines lines') {done other : MusicalSection × List Diagnostic}
    (alike : done.1.PlaysAs other.1) : (lines.foldl (readMusicLine c stepVelocity depth) done).1.PlaysAs
      (lines'.foldl (readMusicLine c stepVelocity depth) other).1 := by
  induction exchanged generalizing done other with
  | nil => exact alike
  | keep same _ ih => exact ih (playsAs_readMusicLine alike same)
  | @exchange a a' b b' _ _ apart first second same same' _ ih =>
    have exchanged := @readMusicLine_comm c stepVelocity depth a b apart (independent a first)
      (independent b second) done
    exact ih (exchanged.music.trans (playsAs_readMusicLine (playsAs_readMusicLine alike same') same))

theorem playsAs_readMusicLines (independent : ∀ line, movable line → line.IsIndependent c.sequences depth)
    {s s' : Section} (exchanged : s.Exchanged movable s') :
    (readMusicLines c stepVelocity depth s).1.PlaysAs (readMusicLines c stepVelocity depth s').1 := by
  have chords := exchanged.lines.filter_key fun key => key = chordInstrument
  have others := exchanged.lines.filter_key fun key => key ≠ chordInstrument
  refine foldl_readMusicLine_exchanged independent (chords.append others) ?_
  dsimp only
  rw [exchanged.name]
  exact .refl _

structure PlaysAlike (r other : Reading) : Prop where
  rest : { r.score with sections := other.score.sections } = other.score
  sections : List.Forall₂ PlaysAs r.score.sections other.score.sections

theorem PlaysAlike.of_same {r other : Reading} (same : SameScore r other) : PlaysAlike r other := by
  obtain ⟨c, reports⟩ := r
  obtain rfl : c = other.score := same
  exact ⟨rfl, List.forall₂_same.2 fun s _ => .refl s⟩

structure PlayedAlike (sequences : Table Text) (r other : Reading) : Prop extends PlaysAlike r other where
  sequences : r.score.sequences = sequences

theorem alike_readExchanged {r other : Reading} (alike : PlaysAlike r other)
    (independent : ∀ depth : Int, settings.maxDepth.toInt = .ok depth → ∀ line, movable line →
      line.IsIndependent r.score.sequences depth.toNat) {s s' : Section} (exchanged : s.Exchanged movable s') :
    Alike (fun music music' => music.1.PlaysAs music'.1) (readMusicalSection settings r.score s)
      (readMusicalSection settings other.score s') := by
  unfold readMusicalSection
  cases limit : settings.maxDepth.toInt with
  | error fault => exact .error fault
  | ok depth =>
    change Alike _ (settings.stepVelocity.toInt >>= _) (settings.stepVelocity.toInt >>= _)
    refine .bind_same fun stepVelocity => .ok ?_
    -- a section is read without looking at those that have been read
    have context : readMusicLines other.score stepVelocity depth.toNat s' =
        readMusicLines r.score stepVelocity depth.toNat s' := by
      rw [← alike.rest]
      rfl
    rw [context]
    exact playsAs_readMusicLines (independent depth limit) exchanged

theorem alike_readExchangedItem {sequences : Table Text}
    (independent : ∀ depth : Int, settings.maxDepth.toInt = .ok depth → ∀ line, movable line →
      line.IsIndependent sequences depth.toNat)
    (exchanged : List.Forall₂ (Section.Exchanged movable) sections sections') (line line' : Nat) (name : Text)
    {r other : Reading} (alike : PlayedAlike sequences r other) :
    Alike (PlayedAlike sequences) (readPlaylistItem settings sections line r name)
      (readPlaylistItem settings sections' line' other name) := by
  unfold readPlaylistItem
  have found := find?_related Section.Exchanged.name exchanged name
  generalize Script.find? sections name = s, Script.find? sections' name = s' at found
  cases found with
  | none => exact .ok ⟨⟨alike.rest, alike.sections⟩, alike.sequences⟩
  | some here =>
    dsimp only
    have read := alike_readExchanged alike.toPlaysAlike (fun depth limit line moves => by
      rw [alike.sequences]
      exact independent depth limit line moves) here.2
    refine read.bind fun {music music'} plays => .ok ⟨⟨?_, ?_⟩, alike.sequences⟩
    · exact congrArg (fun c : Score => { c with sections := other.score.sections ++ [music'.1] }) alike.rest
    · exact List.rel_append alike.sections (.cons plays .nil)

theorem alike_readExchangedMusic {sequences : Table Text}
    (independent : ∀ depth : Int, settings.maxDepth.toInt = .ok depth → ∀ line, movable line →
      line.IsIndependent sequences depth.toNat)
    (exchanged : List.Forall₂ (Section.Exchanged movable) sections sections') {r other : Reading}
    (alike : PlayedAlike sequences r other) :
    Alike (PlayedAlike sequences) (readMusic settings sections r) (readMusic settings sections' other) := by
  have names : playedNames other.score = playedNames r.score := by
    rw [← alike.rest]
    rfl
  unfold readMusic
  dsimp only
  rw [names]
  refine Alike.foldlM (R := Eq) (fun alike named => ?_) (List.forall₂_same.2 fun _ _ => rfl) alike
  subst named
  exact alike_readExchangedItem independent exchanged _ _ _ alike

theorem playsAs_applyChange {s other : MusicalSection} (alike : s.PlaysAs other) (target : ControlTarget)
    (change : ControlChange) : (applyChange target change s).PlaysAs (applyChange target change other) := by
  have measures : controlledMeasures other target.instrument = controlledMeasures s target.instrument := by
    rw [controlledMeasures, controlledMeasures, alike.measures]
  simp only [applyChange, measures]
  apply alike.insert
  rw [List.length_mapIdx, length_controlledMeasures]
  omega

theorem changeSection_forall₂ {music music' : List MusicalSection} (alike : List.Forall₂ PlaysAs music music')
    (name : Text) (target : ControlTarget) (change : ControlChange) :
    List.Forall₂ PlaysAs (changeSection name (applyChange target change) music)
      (changeSection name (applyChange target change) music') := by
  induction alike with
  | nil => exact .nil
  | cons here later ih =>
    rw [changeSection, changeSection, ← here.name]
    split
    · exact .cons (playsAs_applyChange here target change) later
    · exact .cons here ih

theorem PlaysAlike.sectionIn {r other : Reading} (alike : PlaysAlike r other) (target : ControlTarget) :
    target.sectionIn other.score = target.sectionIn r.score := by
  have sections := alike.sections
  unfold ControlTarget.sectionIn
  generalize r.score.sections = music, other.score.sections = music' at sections
  cases sections with
  | nil => rfl
  | cons here _ => rw [List.head?_cons, List.head?_cons, Option.map_some, Option.map_some, here.name]

theorem PlaysAlike.section? {r other : Reading} (alike : PlaysAlike r other) (name : Text) :
    Option.Rel PlaysAs (r.score.section? name) (other.score.section? name) :=
  Performance.find?_forall₂ (fun _ _ here => here.name.symm) alike.sections name

theorem alike_readExchangedControlLine {r other : Reading} (alike : PlaysAlike r other) {line line' : Line}
    (same : line.Same line') : Alike PlaysAlike (readControlLine r line) (readControlLine other line') := by
  have controllers : other.score.controllers = r.score.controllers := by rw [← alike.rest]
  unfold readControlLine
  rw [Line.path, Line.path, same.key, same.value, controllers]
  split
  · exact .ok ⟨alike.rest, alike.sections⟩
  next target _ =>
    dsimp only
    rw [alike.sectionIn target]
    have found := alike.section? (target.sectionIn r.score)
    generalize r.score.section? _ = s, other.score.section? _ = s' at found
    cases found with
    | none => exact .ok ⟨alike.rest, alike.sections⟩
    | some _ =>
      dsimp only
      refine (alike_readChange _ _ _ _ _).bind fun {change change'} same => ?_
      obtain ⟨change, reports⟩ := change
      obtain rfl : change = change'.1 := same
      dsimp only
      split
      · exact .ok ⟨alike.rest, alike.sections⟩
      next change _ =>
        refine .ok ⟨?_, changeSection_forall₂ alike.sections _ _ _⟩
        exact congrArg (fun c : Score => { c with
          sections := changeSection (target.sectionIn r.score) (applyChange target change)
            other.score.sections }) alike.rest

theorem alike_readExchangedControl {r other : Reading} (alike : PlaysAlike r other) {s s' : Option Section}
    (same : Option.Rel Section.SameLines s s') : Alike PlaysAlike (readControl r s) (readControl other s') := by
  cases same with
  | none => exact .ok alike
  | some lines =>
    exact Alike.foldlM (R := Line.Same) (fun alike same => alike_readExchangedControlLine alike same) lines
      alike

theorem alike_ofExchangedSections
    (independent : ∀ (composed : Reading) (depth : Int), beforeMusic settings sections = .ok composed →
      settings.maxDepth.toInt = .ok depth → ∀ line, movable line →
        line.IsIndependent composed.score.sequences depth.toNat)
    (exchanged : List.Forall₂ (Section.Exchanged movable) sections sections') :
    Alike PlaysAlike (ofSections settings sections) (ofSections settings sections') := by
  have reserved := find?_reserved Section.Exchanged.name Section.Exchanged.reserved exchanged
  have before : Alike PlaysAlike (beforeControl settings sections) (beforeControl settings sections') := by
    have composed := alike_beforeMusic settings reserved
    unfold beforeControl
    generalize read : beforeMusic settings sections = r, beforeMusic settings sections' = other at composed ⊢
    cases composed with
    | error fault => exact .error fault
    | @ok r _ score =>
      exact (alike_readExchangedMusic (fun depth => independent r depth read) exchanged
        ⟨.of_same score, rfl⟩).imp (·.toPlaysAlike)
  rw [ofSections_eq, ofSections_eq]
  exact before.bind fun played => alike_readExchangedControl played (reserved _ (by decide))

end Score

namespace Performance

open MusicalSection

variable {c : Score} {floor : Int} {instruments : List Instrument}

theorem sectionSlots_playsAs (music : List MusicalSection) {s other : MusicalSection} (alike : s.PlaysAs other) :
    sectionSlots { c with sections := music } floor other instruments = sectionSlots c floor s instruments := by
  unfold sectionSlots sectionFigures instrumentFigures nominalLength
  simp only [alike.measures, alike.length]

theorem joinSections_playsAs (music : List MusicalSection) {sections sections' : List MusicalSection}
    (alike : List.Forall₂ PlaysAs sections sections') (slots : Placed.Slots) (offset : Int) :
    joinSections { c with sections := music } floor instruments slots offset sections' =
      joinSections c floor instruments slots offset sections := by
  induction alike generalizing slots offset with
  | nil => rfl
  | @cons s other _ _ here _ ih =>
    have nominal : nominalLength { c with sections := music } other = nominalLength c s := by
      rw [nominalLength, nominalLength, here.length]
    simp only [joinSections, sectionSlots_playsAs music here, nominal, ih]

end Performance

namespace Score

open Performance

theorem timeline_playsAs {c : Score} {music : List MusicalSection}
    (alike : List.Forall₂ MusicalSection.PlaysAs c.sections music) (floor : Int) :
    ({ c with sections := music } : Score).timeline floor = c.timeline floor := by
  have played := playedSections_forall₂ (fun _ _ here => here.name.symm) alike
  unfold timeline
  simp only [joinSections_playsAs music played]

theorem restore_sections (c : Score) (music : List MusicalSection) (earlier : Option Selection) :
    ({ c with sections := music } : Score).restore earlier = { c.restore earlier with sections := music } := by
  cases earlier <;> rfl

end Score

namespace Compilation

open Fault Script

/-- Lines of music with different keys that follow each other can be exchanged if neither is a chord line
and neither repeats all of its phrases: every instrument has the same measures, the same is reported, and the
timeline of the script stays the same. -/
theorem exchanged_lines_play_alike :
    (∀ (c : Score) (stepVelocity : Int) (depth : Nat) (s : Section) (front back : List Line) (a b : Line),
      s.lines = front ++ a :: b :: back → a.key ≠ b.key → a.IsIndependent c.sequences depth →
      b.IsIndependent c.sequences depth →
      let (music, reports) := Score.readMusicLines c stepVelocity depth s
      let (music', reports') :=
        Score.readMusicLines c stepVelocity depth { s with lines := front ++ b :: a :: back }
      (∀ instrument, music.measuresOf instrument = music'.measuresOf instrument) ∧ reports.Perm reports') ∧
    ∀ (settings : Settings) (earlier : Option Selection) (text text' : Text) (movable : Line → Prop),
      List.Forall₂ (Section.Exchanged movable) (parse text).1 (parse text').1 →
      (∀ (composed : Score.Reading) (depth : Int),
        Score.beforeMusic settings (parse text).1 = .ok composed → settings.maxDepth.toInt = .ok depth →
        ∀ line, movable line → line.IsIndependent composed.score.sequences depth.toNat) →
      (ofText settings earlier text).map (·.timeline) = (ofText settings earlier text').map (·.timeline) := by
  constructor
  · intro c stepVelocity depth s front back a b lines apart independent independent'
    have same := @Score.sameWork_readMusicLines c stepVelocity depth s front back a b lines apart independent
      independent'
    exact ⟨same.music.measures, same.reports⟩
  · intro settings earlier text text' movable exchanged independent
    have scores := Score.alike_ofExchangedSections independent exchanged
    have compiled : Alike (fun c c' => c.timeline = c'.timeline) (ofText settings earlier text)
        (ofText settings earlier text') := by
      unfold ofText
      refine scores.bind fun {reading reading'} alike => ?_
      have restored := Score.restore_sections reading.score reading'.score.sections earlier
      rw [alike.rest] at restored
      have played (floor : Int) : (reading'.score.restore earlier).timeline floor =
          (reading.score.restore earlier).timeline floor := by
        rw [restored]
        exact Score.timeline_playsAs (c := reading.score.restore earlier) alike.sections floor
      simp only [timelineOf, played]
      exact .bind_same fun timeline => .ok rfl
    exact compiled.map_eq id

def chordsLine : Line := ⟨"chord", "1 | 4", 7⟩

def melody : Line := ⟨"s", "1 2 | *", 8⟩

def accompaniment : Line := ⟨"t", "root chord | 5", 9⟩

def accompanied : Section :=
  { name := "a", number := 6, lines := [chordsLine, melody, accompaniment, ⟨"t", "chord | ...", 10⟩] }

def duetPreamble : List Text :=
  ["[composition]", "playlist: a", "[instruments]", "s: octave=3", "t: octave=2", "[a]"]

def accompaniedScript (music : List Text) : Text := (duetPreamble ++ music).flatMap (· ++ [.char '\n'])

def melodyFirst : Text :=
  accompaniedScript ["chord: 1 | 4", "s: 1 2 | *", "t: root chord | 5", "t: chord | ..."]

def accompanimentFirst : Text :=
  accompaniedScript ["chord: 1 | 4", "t: root chord | 5", "s: 1 2 | *", "t: chord | ..."]

theorem exchanged_lines_play_alike_of_accompanied :
    (∀ instrument, (Score.readMusicLines {} 80 8 accompanied).1.measuresOf instrument =
      (Score.readMusicLines {} 80 8 { accompanied with
        lines := [chordsLine, accompaniment, melody, ⟨"t", "chord | ...", 10⟩] }).1.measuresOf instrument) ∧
    (ofText bareSettings none melodyFirst).map (·.timeline) =
      (ofText bareSettings none accompanimentFirst).map (·.timeline) := by
  obtain ⟨lines, scripts⟩ := exchanged_lines_play_alike
  constructor
  · exact (lines {} 80 8 accompanied [chordsLine] [⟨"t", "chord | ...", 10⟩] melody accompaniment rfl
      (by decide) (by decide +kernel) (by decide +kernel)).1
  · refine scripts bareSettings none _ _ (fun line => line = melody ∨ line = accompaniment) ?_
      fun composed depth read limit line moves => ?_
    · have parsed : (parse melodyFirst).1 =
          [⟨"composition", 1, [⟨"playlist", "a", 2⟩]⟩,
            ⟨"instruments", 3, [⟨"s", "octave=3", 4⟩, ⟨"t", "octave=2", 5⟩]⟩, accompanied] := by
        decide +kernel
      have parsed' : (parse accompanimentFirst).1 =
          [⟨"composition", 1, [⟨"playlist", "a", 2⟩]⟩,
            ⟨"instruments", 3, [⟨"s", "octave=3", 4⟩, ⟨"t", "octave=2", 5⟩]⟩,
            { accompanied with lines :=
              [chordsLine, ⟨"t", "root chord | 5", 8⟩, ⟨"s", "1 2 | *", 9⟩, ⟨"t", "chord | ...", 10⟩] }] := by
        decide +kernel
      rw [parsed, parsed']
      refine .cons (.refl _) (.cons (.refl _) (.cons ⟨rfl, ?_, fun reserved => ?_⟩ .nil))
      · exact .keep ⟨rfl, rfl⟩
          (.exchange (by decide) (.inl rfl) (.inr rfl) ⟨rfl, rfl⟩ ⟨rfl, rfl⟩ (.refl _))
      · exact absurd reserved (by decide)
    · have sequences : (Score.beforeMusic bareSettings (parse melodyFirst).1).toOption.map
          (·.score.sequences) = some [] := by decide +kernel
      rw [read] at sequences
      cases limit
      have none : composed.score.sequences = [] := Option.some.inj sequences
      rw [none]
      rcases moves with rfl | rfl <;> decide +kernel

end Compilation

end ScoreScript
