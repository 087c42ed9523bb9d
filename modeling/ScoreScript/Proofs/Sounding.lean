import Mathlib.Data.List.Basic
import ScoreScript.Midi.Track
import ScoreScript.Sequencer.Basic

set_option autoImplicit false

namespace ScoreScript

def Event.IsEndOf (e start : Event) : Prop :=
  start.kind = .noteOn ∧ e.kind = .noteOff ∧ e.channel = start.channel ∧ e.note = start.note
deriving Decidable

def Event.EndsFirst (events : List Event) : Prop := events.Pairwise fun e later => ¬later.IsEndOf e
deriving Decidable

namespace Midi

theorem Timed.notAfter_iff {a b : Timed} :
    a.notAfter b = true ↔ a.tick < b.tick ∨ a.tick = b.tick ∧ order a.event ≤ order b.event := by
  simp only [notAfter, Bool.or_eq_true, Bool.and_eq_true, decide_eq_true_eq]

theorem Timed.notAfter_trans (a b c : Timed) (first : a.notAfter b = true) (second : b.notAfter c = true) :
    a.notAfter c = true := by
  rw [notAfter_iff] at *
  omega

theorem Timed.notAfter_total (a b : Timed) : (a.notAfter b || b.notAfter a) = true := by
  rw [Bool.or_eq_true, notAfter_iff, notAfter_iff]
  omega

theorem pairwise_sorted (events : List Timed) :
    (sorted events).Pairwise fun a b => a.notAfter b = true :=
  List.pairwise_mergeSort Timed.notAfter_trans Timed.notAfter_total events

end Midi

namespace Sequencer

variable {σ : Type}

theorem mem_sounding_account (p : Player σ) (e : Event) (key : Int × Int) :
    key ∈ (p.account e).sounding ↔
      match e.kind with
      | .noteOn => key = (e.channel, e.note) ∨ key ∈ p.sounding
      | .noteOff => key ∈ p.sounding ∧ key ≠ (e.channel, e.note)
      | _ => key ∈ p.sounding := by
  unfold Player.account
  cases e.kind with
  | noteOn =>
    by_cases known : (e.channel, e.note) ∈ p.sounding
    · simp only [known, if_true]
      constructor
      · exact .inr
      · rintro (rfl | before)
        · exact known
        · exact before
    · simp [known, or_comm]
  | noteOff => simp
  | controlChange | programChange | sample => rfl

theorem mem_sounding_foldl_account {events : List Event} (ordered : Event.EndsFirst events)
    (p : Player σ) (key : Int × Int) :
    key ∈ (events.foldl Player.account p).sounding ↔
      (∃ e ∈ events, e.kind = .noteOn ∧ (e.channel, e.note) = key) ∨
        key ∈ p.sounding ∧ ∀ e ∈ events, e.kind = .noteOff → (e.channel, e.note) ≠ key := by
  induction events generalizing p with
  | nil => simp
  | cons e rest ih =>
    obtain ⟨unended, ordered⟩ := List.pairwise_cons.1 ordered
    rw [List.foldl_cons, ih ordered]
    simp only [List.exists_mem_cons_iff, List.forall_mem_cons]
    cases kind : e.kind with
    | noteOn =>
      have added := mem_sounding_account p e key
      simp only [kind] at added
      -- no later event ends the note that starts here
      have kept (same : (e.channel, e.note) = key) (f : Event) (member : f ∈ rest)
          (ends : f.kind = .noteOff) : (f.channel, f.note) ≠ key := by
        rintro rfl
        obtain ⟨channel, note⟩ := Prod.mk.inj same
        exact unended f member ⟨kind, ends, channel.symm, note.symm⟩
      rw [added]
      constructor
      · rintro (later | ⟨rfl | before, free⟩)
        · exact .inl (.inr later)
        · exact .inl (.inl ⟨rfl, rfl⟩)
        · exact .inr ⟨before, nofun, free⟩
      · rintro ((⟨-, same⟩ | later) | ⟨before, -, free⟩)
        · exact .inr ⟨.inl same.symm, kept same⟩
        · exact .inl later
        · exact .inr ⟨.inr before, free⟩
    | noteOff =>
      have removed := mem_sounding_account p e key
      simp only [kind] at removed
      rw [removed]
      simp [and_assoc, eq_comm (a := key)]
    | controlChange | programChange | sample => simp [Player.account, kind]

theorem endsFirst_sorted (tick : Int) (events : List Event) :
    Event.EndsFirst ((Midi.sorted (events.map fun e => ⟨tick, e⟩)).map Midi.Timed.event) := by
  have ticks : ∀ e ∈ Midi.sorted (events.map fun e => ⟨tick, e⟩), e.tick = tick := by
    intro e member
    obtain ⟨_, -, rfl⟩ := List.mem_map.1 (List.mem_mergeSort.1 member)
    rfl
  have sorted := Midi.pairwise_sorted (events.map fun e => (⟨tick, e⟩ : Midi.Timed))
  refine List.pairwise_map.2 (sorted.imp_of_mem fun {e f} member later placed ends => ?_)
  rw [Midi.Timed.notAfter_iff, ticks e member, ticks f later] at placed
  simp only [Midi.order, ends.1, ends.2.1] at placed
  omega

theorem mem_sounding_sorted {events : List Event} (ordered : Event.EndsFirst events) (tick : Int)
    (p : Player σ) (key : Int × Int) :
    key ∈ (events.foldl Player.account p).sounding ↔
      key ∈ (((Midi.sorted (events.map fun e => ⟨tick, e⟩)).map Midi.Timed.event).foldl
        Player.account p).sounding := by
  have same (e : Event) : e ∈ (Midi.sorted (events.map fun e => ⟨tick, e⟩)).map Midi.Timed.event ↔
      e ∈ events := by
    simp [Midi.sorted]
  simp only [mem_sounding_foldl_account ordered, mem_sounding_foldl_account (endsFirst_sorted tick events),
    same]

end Sequencer

end ScoreScript
