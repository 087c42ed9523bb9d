import ScoreScript.Proofs.Script

set_option autoImplicit false

namespace ScoreScript

namespace Fault

variable {α β γ δ : Type} {R : α → β → Prop} {S : γ → δ → Prop}

inductive Alike (R : α → β → Prop) : Except Fault α → Except Fault β → Prop where
  | ok {a : α} {b : β} (related : R a b) : Alike R (.ok a) (.ok b)
  | error (fault : Fault) : Alike R (.error fault) (.error fault)

theorem Alike.imp {R' : α → β → Prop} {first : Except Fault α} {other : Except Fault β}
    (alike : Alike R first other) (weaker : ∀ {a b}, R a b → R' a b) : Alike R' first other := by
  cases alike with
  | ok related => exact .ok (weaker related)
  | error fault => exact .error fault

theorem Alike.bind {first : Except Fault α} {other : Except Fault β} {next : α → Except Fault γ}
    {next' : β → Except Fault δ} (alike : Alike R first other)
    (later : ∀ {a b}, R a b → Alike S (next a) (next' b)) : Alike S (first >>= next) (other >>= next') := by
  cases alike with
  | ok related => exact later related
  | error fault => exact .error fault

theorem Alike.bind_same {outcome : Except Fault α} {next : α → Except Fault γ} {next' : α → Except Fault δ}
    (later : ∀ a, Alike S (next a) (next' a)) : Alike S (outcome >>= next) (outcome >>= next') := by
  cases outcome with
  | ok a => exact later a
  | error fault => exact .error fault

theorem Alike.map_eq {first : Except Fault α} {other : Except Fault β} {view : α → γ} {view' : β → γ}
    (alike : Alike R first other) (same : ∀ {a b}, R a b → view a = view' b) :
    first.map view = other.map view' := by
  cases alike with
  | ok related => exact congrArg Except.ok (same related)
  | error fault => rfl

theorem Alike.foldlM {step : γ → α → Except Fault γ} {step' : δ → β → Except Fault δ}
    (steps : ∀ {s s' a b}, S s s' → R a b → Alike S (step s a) (step' s' b)) {items : List α}
    {items' : List β} (related : List.Forall₂ R items items') {s : γ} {s' : δ} (start : S s s') :
    Alike S (items.foldlM step s) (items'.foldlM step' s') := by
  induction related generalizing s s' with
  | nil => exact .ok start
  | cons here _ ih =>
    rw [List.foldlM_cons, List.foldlM_cons]
    exact (steps start here).bind ih

end Fault

namespace Script

structure Line.Same (line other : Line) : Prop where
  key : line.key = other.key
  value : line.value = other.value

def Section.SameLines (s other : Section) : Prop := List.Forall₂ Line.Same s.lines other.lines

end Script

namespace Score

open Fault Script

def SameScore (r other : Reading) : Prop := r.score = other.score

variable {settings : Settings} {r other : Reading} {line line' : Line} {s s' : Option Section}

theorem alike_readHeaderLine (score : r.score = other.score) (same : line.Same line') :
    Alike SameScore (readHeaderLine r line) (readHeaderLine other line') := by
  obtain ⟨key, value, number⟩ := line
  obtain ⟨c, reports⟩ := r
  obtain ⟨rfl, rfl⟩ := same
  obtain rfl : c = other.score := score
  unfold readHeaderLine
  dsimp only
  split_ifs
  · exact .ok rfl
  · cases numberIn? 0 255 (Text.trim line'.value) <;> exact .ok rfl
  · cases Grid.ofSignature? (Text.trim line'.value) <;> exact .ok rfl
  · cases numberIn? (-7) 7 (Text.trim line'.value) <;> exact .ok rfl
  · exact .ok rfl
  · exact .ok rfl
  · refine .bind_same fun names => ?_
    split_ifs <;> exact .ok rfl
  · exact .ok rfl
  · exact .ok rfl

theorem alike_readHeader (score : r.score = other.score) (same : Option.Rel Section.SameLines s s') :
    Alike SameScore (readHeader r s) (readHeader other s') := by
  cases same with
  | none => exact .ok score
  | some lines => exact Alike.foldlM (R := Line.Same) alike_readHeaderLine lines score

theorem sameScore_readInstrumentItem (score : r.score = other.score) (name : Text) (line line' : Nat)
    (item : Text) : SameScore (readInstrumentItem name line r item) (readInstrumentItem name line' other item) := by
  unfold readInstrumentItem SameScore
  cases InstrumentItem.ofText item <;> simp only [Reading.update, Reading.report, score]

theorem alike_declareInstrument (score : r.score = other.score) (name : Text) :
    Alike SameScore (declareInstrument settings r name) (declareInstrument settings other name) := by
  unfold declareInstrument
  rw [score]
  split
  · exact .ok score
  · refine .bind_same fun velocity => .ok ?_
    simp only [SameScore, Reading.update, score]

theorem alike_readInstrumentLine (score : r.score = other.score) (same : line.Same line') :
    Alike SameScore (readInstrumentLine settings r line) (readInstrumentLine settings other line') := by
  unfold readInstrumentLine
  rw [same.key, Line.items, Line.items, same.value]
  refine (alike_declareInstrument score line'.key).bind fun declared => .ok ?_
  exact List.foldl_rel declared fun item _ _ _ score => sameScore_readInstrumentItem score _ _ _ item

theorem alike_readInstruments (score : r.score = other.score) (same : Option.Rel Section.SameLines s s') :
    Alike SameScore (readInstruments settings r s) (readInstruments settings other s') := by
  cases same with
  | none => exact .ok score
  | some lines => exact Alike.foldlM (R := Line.Same) alike_readInstrumentLine lines score

theorem foldl_addSequenceLine {lines lines' : List Line} (same : List.Forall₂ Line.Same lines lines')
    (sequences : Table Text) :
    lines.foldl addSequenceLine sequences = lines'.foldl addSequenceLine sequences := by
  induction same generalizing sequences with
  | nil => rfl
  | cons here _ ih =>
    rw [List.foldl_cons, List.foldl_cons, addSequenceLine, here.key, here.value, ih]
    rfl

theorem sameScore_readSequences (score : r.score = other.score)
    (same : Option.Rel Section.SameLines s s') : SameScore (readSequences r s) (readSequences other s') := by
  cases same with
  | none => exact score
  | some lines => simp only [SameScore, readSequences, Reading.update, score, foldl_addSequenceLine lines]

structure SoundItems.Same (items others : SoundItems) : Prop where
  call : items.call = others.call
  modifiers : items.modifiers = others.modifiers

theorem same_add {items others : SoundItems} (same : items.Same others) (number number' : Nat)
    (item : Text) : (items.add number item).Same (others.add number' item) := by
  unfold SoundItems.add
  dsimp only
  split_ifs
  · exact ⟨rfl, same.modifiers⟩
  · split
    · rw [same.modifiers]
      split_ifs
      · exact ⟨same.call, rfl⟩
      · exact ⟨same.call, rfl⟩
    · exact ⟨same.call, same.modifiers⟩

theorem alike_defineSound (score : r.score = other.score) (key : line.key = line'.key)
    {items others : SoundItems} (same : items.Same others) (function : Text) (arguments : List Text) :
    Alike SameScore (defineSound r line items function arguments)
      (defineSound other line' others function arguments) := by
  unfold defineSound
  simp only [SoundItems.modifierIn, SoundItems.modifier, same.modifiers, key]
  split_ifs
  · refine .bind_same fun volume => .ok ?_
    simp only [SameScore, Reading.update, score]
  · refine .ok ?_
    simp only [SameScore, Reading.update, score]
  · refine .bind_same fun spacing => .bind_same fun duration => .ok ?_
    simp only [SameScore, Reading.update, score]
  · refine .bind_same fun delay => .bind_same fun decay => .ok ?_
    simp only [SameScore, Reading.update, score]
  · exact .ok score

theorem alike_readSoundLine (score : r.score = other.score) (same : line.Same line') :
    Alike SameScore (readSoundLine settings r line) (readSoundLine settings other line') := by
  have items : (List.foldl (SoundItems.add line.number) { modifiers := settings.sound }
      (Text.splitOutsideParens ',' line.value)).Same (List.foldl (SoundItems.add line'.number)
        { modifiers := settings.sound } (Text.splitOutsideParens ',' line'.value)) := by
    rw [same.value]
    exact List.foldl_rel ⟨rfl, rfl⟩ fun item _ _ _ same => same_add same _ _ item
  unfold readSoundLine
  dsimp only
  rw [items.call]
  split
  · refine alike_defineSound ?_ same.key items _ _
    exact score
  · exact .ok score

theorem alike_readSounds (score : r.score = other.score) (same : Option.Rel Section.SameLines s s') :
    Alike SameScore (readSounds settings r s) (readSounds settings other s') := by
  cases same with
  | none => exact .ok score
  | some lines => exact Alike.foldlM (R := Line.Same) alike_readSoundLine lines score

theorem alike_readChange (controllers : Table Int) (number number' : Nat) (message value : Text) :
    Alike (fun change change' : Option ControlChange × List Diagnostic => change.1 = change'.1)
      (ControlChange.read controllers number message value)
      (ControlChange.read controllers number' message value) := by
  unfold ControlChange.read
  split_ifs
  · exact .ok rfl
  · split <;> exact .ok rfl
  · exact .bind_same fun value => .ok rfl
  · exact .ok rfl

theorem alike_readControlLine (score : r.score = other.score) (same : line.Same line') :
    Alike SameScore (readControlLine r line) (readControlLine other line') := by
  unfold readControlLine
  rw [Line.path, Line.path, same.key, same.value, score]
  split
  · exact .ok score
  · dsimp only
    split
    · exact .ok score
    · refine (alike_readChange _ _ _ _ _).bind fun {change change'} same => ?_
      obtain ⟨change, reports⟩ := change
      obtain rfl : change = change'.1 := same
      dsimp only
      split <;> exact .ok rfl

theorem alike_readControl (score : r.score = other.score) (same : Option.Rel Section.SameLines s s') :
    Alike SameScore (readControl r s) (readControl other s') := by
  cases same with
  | none => exact .ok score
  | some lines => exact Alike.foldlM (R := Line.Same) alike_readControlLine lines score

end Score

end ScoreScript
