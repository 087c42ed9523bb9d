import Mathlib.Algebra.Ring.Int.Defs
import ScoreScript.Proofs.Layout

set_option autoImplicit false

namespace ScoreScript

namespace Performance

open Placed

structure Row where
  start : Int
  slots : List (List Event)
deriving DecidableEq

namespace Row

def eventsIn (slot : Nat) (row : Row) : List Event :=
  if row.start ≤ slot then (row.slots[(slot - row.start).toNat]?).getD [] else []

def reach (rows : List Row) : Nat :=
  (rows.map fun row => (row.start + row.slots.length).toNat).foldr max 0

def overlay (rows : List Row) : List (List Event) :=
  (List.range (reach rows)).map fun slot => rows.flatMap (eventsIn slot)

theorem reach_cons (row : Row) (rest : List Row) :
    reach (row :: rest) = max (row.start + row.slots.length).toNat (reach rest) := rfl

theorem length_overlay (rows : List Row) : (overlay rows).length = reach rows := by
  simp [overlay]

theorem eventsIn_of_le {row : Row} {slot : Nat}
    (beyond : (row.start + row.slots.length).toNat ≤ slot) : row.eventsIn slot = [] := by
  unfold eventsIn
  split
  · rw [List.getElem?_eq_none (by omega)]
    rfl
  · rfl

theorem flatMap_eventsIn_of_le {rows : List Row} {slot : Nat} (beyond : reach rows ≤ slot) :
    rows.flatMap (eventsIn slot) = [] := by
  induction rows with
  | nil => rfl
  | cons row rest ih =>
    rw [reach_cons] at beyond
    rw [List.flatMap_cons, eventsIn_of_le (by omega), ih (by omega), List.append_nil]

theorem getElem?_overlay (rows : List Row) (slot : Nat) :
    ((overlay rows)[slot]?).getD [] = rows.flatMap (eventsIn slot) := by
  rcases Nat.lt_or_ge slot (reach rows) with inside | beyond
  · simp [overlay, inside]
  · rw [flatMap_eventsIn_of_le beyond, List.getElem?_eq_none (by rwa [length_overlay])]
    rfl

theorem eq_overlay {slots : List (List Event)} {rows : List Row} (size : slots.length = reach rows)
    (content : ∀ slot : Nat, (slots[slot]?).getD [] = rows.flatMap (eventsIn slot)) :
    slots = overlay rows := by
  refine List.ext_getElem (by rw [size, length_overlay]) fun slot inside inside' => ?_
  have same := (content slot).trans (getElem?_overlay rows slot).symm
  rwa [List.getElem?_eq_getElem inside, List.getElem?_eq_getElem inside'] at same

theorem eventsIn_zero (slots : List (List Event)) (slot : Nat) :
    eventsIn slot ⟨0, slots⟩ = (slots[slot]?).getD [] := by
  simp [eventsIn]

theorem overlay_overlay (first rest : List Row) :
    overlay (⟨0, overlay first⟩ :: rest) = overlay (first ++ rest) := by
  have reached : reach (⟨0, overlay first⟩ :: rest) = reach (first ++ rest) := by
    have split (first : List Row) : max (reach first) (reach rest) = reach (first ++ rest) := by
      induction first with
      | nil => simp [reach]
      | cons row later ih => rw [List.cons_append, reach_cons, reach_cons, Nat.max_assoc, ih]
    rw [reach_cons, length_overlay, ← split]
    simp
  refine eq_overlay (by rw [length_overlay, reached]) fun slot => ?_
  rw [getElem?_overlay, List.flatMap_cons, eventsIn_zero, getElem?_overlay, List.flatMap_append]

theorem eventsAt_placedFrom (row : Row) (slot : Nat) :
    eventsAt (placedFrom row.start row.slots) slot = row.eventsIn slot := by
  unfold eventsIn
  split
  next after =>
    have moved : row.start + ((slot - row.start).toNat : Int) = slot := by omega
    rw [placedFrom_eq_shift, eventsAt_shift row.start moved, Performance.eventsAt_placedFrom]
  next before =>
    refine eventsAt_of_lt fun p member => ?_
    have := slot_placedFrom row.start row.slots p member
    omega

theorem extent_placedFrom {row : Row} (present : row.slots ≠ []) :
    extent (placedFrom row.start row.slots) = (row.start + row.slots.length).toNat := by
  obtain ⟨start, slots⟩ := row
  induction slots using List.reverseRecOn with
  | nil => exact absurd rfl present
  | append_singleton earlier events ih =>
    have split : placedFrom start (earlier ++ [events]) =
        placedFrom start earlier ++ [⟨start + (earlier.length : Int), events⟩] := by
      simp [placedFrom, List.zipIdx_append]
    have last : extent [⟨start + (earlier.length : Int), events⟩] =
        (start + (earlier.length : Int) + 1).toNat := by simp [extent]
    dsimp only at ih ⊢
    rw [split, extent_append, last]
    cases earlier with
    | nil => simp [placedFrom, extent]
    | cons first more =>
      rw [ih (by simp)]
      simp only [List.length_append, List.length_cons, List.length_nil]
      omega

theorem addAll_placedFrom (slots : Slots) (row : Row) (present : row.slots ≠ [])
    (start : 0 ≤ row.start) :
    addAll slots (placedFrom row.start row.slots) =
      .ok (overlay [⟨0, slots.toList⟩, row]).toArray := by
  have nonneg (p : Placed) (member : p ∈ placedFrom row.start row.slots) : 0 ≤ p.slot :=
    Int.le_trans start (slot_placedFrom row.start row.slots p member)
  obtain ⟨result, added, size, content⟩ := addAll_of_nonneg slots nonneg
  rw [added, Except.ok.injEq, ← result.toArray_toList]
  congr 1
  refine eq_overlay ?_ fun slot => ?_
  · rw [Array.length_toList, size, extent_placedFrom present]
    simp [reach]
  · rw [Array.getElem?_toList, content, eventsAt_placedFrom]
    simp [eventsIn_zero]

end Row

theorem extent_le {placed : List Placed} {n : Nat} (before : ∀ p ∈ placed, p.slot < n) :
    extent placed ≤ n := by
  induction placed with
  | nil => exact Nat.zero_le n
  | cons p rest ih =>
    obtain ⟨here, later⟩ := List.forall_mem_cons.1 before
    have := ih later
    rw [extent_cons]
    omega

theorem size_le_of_add {slots after : Slots} {p : Placed} (done : add slots p = .ok after) :
    slots.size ≤ after.size := by
  unfold add at done
  split at done
  · cases done
    rw [size_putAt]
    omega
  · cases done

theorem size_le_of_addAll {slots result : Slots} {placed : List Placed}
    (done : addAll slots placed = .ok result) : slots.size ≤ result.size :=
  Fault.foldlM_invariant (slots.size ≤ ·.size)
    (fun before added => Nat.le_trans before (size_le_of_add added)) (Nat.le_refl _) done

variable {c : Score} {floor : Int} {instruments : List Instrument}

theorem length_sectionSlots {s : MusicalSection} {slots : List (List Event)}
    (done : sectionSlots c floor s instruments = .ok slots) :
    nominalLength c s + 1 ≤ slots.length := by
  obtain ⟨result, performed, same⟩ := Fault.bind_eq_ok.1 done
  cases same
  have grown := size_le_of_addAll (addAll_of_figures performed)
  rw [Array.size_replicate] at grown
  rw [Array.length_toList]
  omega

theorem length_sectionSlots_eq {s : MusicalSection} {slots : List (List Event)}
    (nonneg : ∀ p ∈ sectionEvents c floor s instruments, 0 ≤ p.slot)
    (done : sectionSlots c floor s instruments = .ok slots) :
    slots.length =
      max (nominalLength c s + 1).toNat (extent (sectionEvents c floor s instruments)) := by
  obtain ⟨result, performed, same⟩ := Fault.bind_eq_ok.1 done
  cases same
  obtain ⟨laid, added, length, -⟩ := layOut_of_nonneg (nominalLength c s + 1).toNat nonneg
  rw [layOut, sectionEvents, addAll_of_figures performed] at added
  cases added
  exact length

def startOf (c : Score) (sections : List MusicalSection) (place : Nat) : Int :=
  ((sections.take place).map (nominalLength c)).sum

def rowsFrom (c : Score) (offset : Int) (sections : List MusicalSection)
    (rows : List (List (List Event))) : List Row :=
  rows.mapIdx fun place slots => ⟨offset + startOf c sections place, slots⟩

theorem rowsFrom_cons (offset : Int) (s : MusicalSection) (sections : List MusicalSection)
    (own : List (List Event)) (rows : List (List (List Event))) :
    rowsFrom c offset (s :: sections) (own :: rows) =
      ⟨offset, own⟩ :: rowsFrom c (offset + nominalLength c s) sections rows := by
  simp [rowsFrom, startOf, List.mapIdx_cons, Int.add_assoc]

theorem joinSections_eq_overlay (forward : 0 ≤ c.grid.stepsPerMeasure) (slots : Slots) {offset : Int}
    (start : 0 ≤ offset) (sections : List MusicalSection) :
    joinSections c floor instruments slots offset sections = do
      let rows ← sections.mapM fun s => sectionSlots c floor s instruments
      return (Row.overlay (⟨0, slots.toList⟩ :: rowsFrom c offset sections rows)).toArray := by
  induction sections generalizing slots offset with
  | nil =>
    have same : slots.toList = Row.overlay [⟨0, slots.toList⟩] :=
      Row.eq_overlay (by simp [Row.reach]) fun slot => by simp [Row.eventsIn_zero]
    simp [joinSections, rowsFrom, ← same]
    rfl
  | cons s rest ih =>
    rw [joinSections, List.mapM_cons]
    cases performed : sectionSlots c floor s instruments with
    | error fault => rfl
    | ok own =>
      have nominal := nominalLength_nonneg forward s
      have long := length_sectionSlots performed
      have present : own ≠ [] := by
        rintro rfl
        rw [List.length_nil] at long
        omega
      have laid := Row.addAll_placedFrom slots ⟨offset, own⟩ present start
      have tail := ih (Row.overlay [⟨0, slots.toList⟩, ⟨offset, own⟩]).toArray
        (Int.add_nonneg start nominal)
      simp only [Row.overlay_overlay] at tail
      change (do
        let slots ← addAll slots (placedFrom offset own)
        joinSections c floor instruments slots (offset + nominalLength c s) rest) = _
      rw [laid]
      refine tail.trans ?_
      -- the rows of the other sections are there, or one of them fails on both sides
      cases rest.mapM fun s => sectionSlots c floor s instruments with
      | error fault => rfl
      | ok rows =>
        change Except.ok _ =
          Except.ok (Row.overlay (_ :: rowsFrom c offset (s :: rest) (own :: rows))).toArray
        rw [rowsFrom_cons]
        rfl

theorem find?_forall₂ {R : MusicalSection → MusicalSection → Prop}
    (names : ∀ s now, R s now → now.name = s.name) {sections musical : List MusicalSection}
    (related : List.Forall₂ R sections musical) (name : Text) :
    Option.Rel R (sections.find? (·.name = name)) (musical.find? (·.name = name)) := by
  induction related with
  | nil => exact .none
  | @cons s now rest more here later ih =>
    by_cases named : s.name = name
    · have alike : now.name = name := (names s now here).trans named
      simpa [named, alike] using Option.Rel.some here
    · have apart : now.name ≠ name := fun same => named ((names s now here).symm.trans same)
      simpa [named, apart] using ih

theorem playedSections_forall₂ {c : Score} {R : MusicalSection → MusicalSection → Prop}
    (names : ∀ s now, R s now → now.name = s.name) {musical : List MusicalSection}
    (related : List.Forall₂ R c.sections musical) :
    List.Forall₂ R (playedSections c) (playedSections { c with sections := musical }) := by
  refine List.rel_filterMap (R := Eq) ?_ (List.forall₂_refl c.playlist)
  rintro item _ rfl
  dsimp only
  by_cases selected : item.selected = true
  · rw [if_pos selected, if_pos selected]
    exact find?_forall₂ names related item.name
  · rw [if_neg selected, if_neg selected]
    exact .none

end Performance

open Performance

namespace Score

/-- A timeline is the overlay of its sections, each from the nominal end of those before it, and fails
just if one of them does. -/
theorem timeline_eq_overlay (c : Score) (floor : Int) (forward : 0 ≤ c.grid.stepsPerMeasure) :
    c.timeline floor = do
      let rows ← (playedSections c).mapM fun s =>
        sectionSlots c floor s (c.instruments.filter (·.selected))
      return {
        slots := Row.overlay (rowsFrom c 0 (playedSections c) rows)
        stepsPerBeat := c.grid.stepsPerBeat
        beats := c.grid.beats
        bpm := c.bpm } := by
  have joined := @joinSections_eq_overlay c floor (c.instruments.filter (·.selected)) forward #[] 0
    (Int.le_refl 0) (playedSections c)
  have bare (rows : List Row) : Row.overlay (⟨0, []⟩ :: rows) = Row.overlay rows :=
    Row.overlay_overlay [] rows
  unfold timeline
  simp only [joined, bare]
  cases (playedSections c).mapM fun s =>
    sectionSlots c floor s (c.instruments.filter (·.selected)) <;> rfl

def overhanging : Score :=
  { grid := ⟨1, 2⟩
    instruments := [{ name := "s", channel := 3 }]
    playlist := [{ name := "a" }, { name := "b", selected := false }, { name := "x" }, { name := "a" },
      { name := "b" }]
    sections := [
      { name := "a", measures := [("s", [[{ kind := .synth, pitches := [60], length := 3 }]])] },
      { name := "b", measures := [("s", [[{ kind := .drum, pitches := [36], length := 1 }]])] }] }

theorem timeline_eq_overlay_of_overhanging :
    (overhanging.timeline 20).map Timeline.slots =
      .ok [[Voice.noteOn ⟨3, 80⟩ 60], [], [Voice.noteOn ⟨3, 80⟩ 60], [Voice.noteOff ⟨3, 80⟩ 60],
        [Voice.noteOn ⟨3, 80⟩ 36], [Voice.noteOff ⟨3, 80⟩ 60, Voice.noteOff ⟨3, 80⟩ 36], []] := by
  rw [timeline_eq_overlay overhanging 20 (by decide)]
  decide +kernel

end Score

end ScoreScript
