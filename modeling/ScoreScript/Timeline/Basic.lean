import ScoreScript.Position
import ScoreScript.Timeline.Event

set_option autoImplicit false

namespace ScoreScript

/-- Events and the slot that they belong to. A negative slot is counted from the last one. -/
structure Placed where
  slot : Int
  events : List Event
deriving DecidableEq

namespace Placed

def one (slot : Int) (event : Event) : Placed := ⟨slot, [event]⟩

def extent (placed : List Placed) : Nat := (placed.map fun p => (p.slot + 1).toNat).foldr max 0

def eventsAt (placed : List Placed) (slot : Nat) : List Event :=
  (placed.filter fun p => p.slot = (slot : Int)).flatMap Placed.events

theorem eventsAt_append (first second : List Placed) (slot : Nat) :
    eventsAt (first ++ second) slot = eventsAt first slot ++ eventsAt second slot := by
  simp [eventsAt]

theorem eventsAt_cons (p : Placed) (rest : List Placed) (slot : Nat) :
    eventsAt (p :: rest) slot = (if p.slot = (slot : Int) then p.events else []) ++ eventsAt rest slot := by
  by_cases here : p.slot = slot <;> simp [eventsAt, here]

theorem extent_cons (p : Placed) (rest : List Placed) :
    extent (p :: rest) = max (p.slot + 1).toNat (extent rest) := rfl

theorem extent_append (first second : List Placed) :
    extent (first ++ second) = max (extent first) (extent second) := by
  induction first with
  | nil => simp [extent]
  | cons p rest ih => simp only [List.cons_append, extent_cons, ih, Nat.max_assoc]

theorem lt_extent {placed : List Placed} {p : Placed} (member : p ∈ placed) :
    p.slot < extent placed := by
  induction placed with
  | nil => simp at member
  | cons q rest ih =>
    rw [extent_cons]
    rcases List.mem_cons.1 member with rfl | later
    · omega
    · have := ih later; omega

abbrev Slots := Array (List Event)

def putAt (slots : Slots) (slot : Nat) (events : List Event) : Slots :=
  (slots ++ Array.replicate (slot + 1 - slots.size) []).modify slot (· ++ events)

theorem size_putAt (slots : Slots) (slot : Nat) (events : List Event) :
    (putAt slots slot events).size = max slots.size (slot + 1) := by
  simp only [putAt, Array.size_modify, Array.size_append, Array.size_replicate]; omega

theorem getElem?_putAt (slots : Slots) (slot other : Nat) (events : List Event) :
    ((putAt slots slot events)[other]?).getD [] =
      (slots[other]?).getD [] ++ (if slot = other then events else []) := by
  have grown : ((slots ++ Array.replicate (slot + 1 - slots.size) [])[other]?).getD [] =
      (slots[other]?).getD [] := by
    by_cases inside : other < slots.size
    · simp [Array.getElem?_append_left inside]
    · rw [Array.getElem?_append_right (by omega), Array.getElem?_eq_none (by omega : slots.size ≤ other)]
      rw [Array.getElem?_replicate]
      split <;> rfl
  have reached : slot < (slots ++ Array.replicate (slot + 1 - slots.size) ([] : List Event)).size := by
    simp only [Array.size_append, Array.size_replicate]; omega
  rw [putAt, Array.getElem?_modify]
  by_cases same : slot = other
  · subst same
    rw [if_pos rfl, if_pos rfl, ← grown, Array.getElem?_eq_getElem reached]
    rfl
  · simp only [if_neg same, grown, List.append_nil]

def add (slots : Slots) (p : Placed) : Except Fault Slots :=
  match positionIn slots.size p.slot with
  | .ofNat slot => .ok (putAt slots slot p.events)
  | .negSucc _ => .error .outOfRange

theorem add_of_nonneg (slots : Slots) {p : Placed} (nonneg : 0 ≤ p.slot) :
    add slots p = .ok (putAt slots p.slot.toNat p.events) := by
  obtain ⟨slot, same⟩ := Int.eq_ofNat_of_zero_le nonneg
  simp only [add, positionIn_of_nonneg nonneg]
  rw [same]
  rfl

def addAll (slots : Slots) (placed : List Placed) : Except Fault Slots := placed.foldlM add slots

theorem addAll_of_nonneg (slots : Slots) {placed : List Placed}
    (nonneg : ∀ p ∈ placed, 0 ≤ p.slot) :
    ∃ result, addAll slots placed = .ok result ∧
      result.size = max slots.size (extent placed) ∧
      ∀ slot : Nat, (result[slot]?).getD [] = (slots[slot]?).getD [] ++ eventsAt placed slot := by
  induction placed generalizing slots with
  | nil => exact ⟨slots, rfl, by simp [extent], by simp [eventsAt]⟩
  | cons p rest ih =>
    have here := nonneg p (by simp)
    obtain ⟨result, added, size, content⟩ :=
      ih (putAt slots p.slot.toNat p.events) fun q member => nonneg q (by simp [member])
    refine ⟨result, ?_, ?_, ?_⟩
    · rw [addAll, List.foldlM_cons, add_of_nonneg slots here]; exact added
    · rw [size, size_putAt, extent_cons]; omega
    · intro slot
      have same : (p.slot.toNat = slot) = (p.slot = (slot : Int)) := by apply propext; omega
      rw [content, getElem?_putAt, eventsAt_cons, List.append_assoc]
      simp only [same]

def layOut (size : Nat) (placed : List Placed) : Except Fault (List (List Event)) :=
  return (← addAll (Array.replicate size []) placed).toList

theorem layOut_of_nonneg (size : Nat) {placed : List Placed} (nonneg : ∀ p ∈ placed, 0 ≤ p.slot) :
    ∃ slots, layOut size placed = .ok slots ∧ slots.length = max size (extent placed) ∧
      ∀ slot : Nat, (slots[slot]?).getD [] = eventsAt placed slot := by
  obtain ⟨result, added, count, content⟩ := addAll_of_nonneg (Array.replicate size []) nonneg
  refine ⟨result.toList, ?_, by simpa using count, ?_⟩
  · rw [layOut, added]; rfl
  · intro slot
    have empty : ((Array.replicate size ([] : List Event))[slot]?).getD [] = [] := by
      rw [Array.getElem?_replicate]; split <;> rfl
    rw [Array.getElem?_toList, content, empty, List.nil_append]

end Placed

structure Timeline where
  slots : List (List Event) := []
  stepsPerBeat : Int := 12
  beats : Int := 4
  bpm : Int := 120
deriving DecidableEq

namespace Timeline

def stepDuration (t : Timeline) : Except Fault Binary64 :=
  if t.bpm ≤ 0 ∨ t.stepsPerBeat ≤ 0 then .ok 0
  else return 60 / (← Binary64.ofWhole t.bpm) / (← Binary64.ofWhole t.stepsPerBeat)

def events (t : Timeline) : List (Nat × Event) :=
  t.slots.zipIdx.flatMap fun slot => slot.1.map fun event => (slot.2, event)

def noteOnCount (t : Timeline) : Nat := (t.events.filter fun e => e.2.isNoteOn).length

def lastSlot? (t : Timeline) : Option Nat := t.events.getLast?.map Prod.fst

end Timeline

end ScoreScript
