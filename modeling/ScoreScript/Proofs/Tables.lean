import ScoreScript.Table

set_option autoImplicit false

namespace ScoreScript

theorem nodup_eraseDups {α : Type} [BEq α] [LawfulBEq α] : ∀ items : List α, items.eraseDups.Nodup
  | [] => .nil
  | item :: rest => by
    rw [List.eraseDups_cons, List.nodup_cons]
    exact ⟨by simp [List.mem_eraseDups], nodup_eraseDups _⟩
termination_by items => items.length
decreasing_by exact Nat.lt_succ_of_le (List.length_filter_le _ rest)

namespace Table

variable {α : Type} {table : Table α}

theorem forall_insert {keeps : α → Prop} {value : α} (entered : keeps value) (name : Text)
    (whole : ∀ entry ∈ table, keeps entry.2) : ∀ entry ∈ table.insert name value, keeps entry.2 := by
  induction table with
  | nil => exact List.forall_mem_singleton.2 entered
  | cons entry rest ih =>
    obtain ⟨here, later⟩ := List.forall_mem_cons.1 whole
    unfold insert
    split
    · exact List.forall_mem_cons.2 ⟨entered, later⟩
    · exact List.forall_mem_cons.2 ⟨here, ih later⟩

theorem map_fst_insert (table : Table α) (name : Text) (value : α) :
    (table.insert name value).map Prod.fst =
      if name ∈ table.map Prod.fst then table.map Prod.fst else table.map Prod.fst ++ [name] := by
  induction table with
  | nil => simp [insert]
  | cons entry rest ih =>
    unfold insert
    by_cases same : name = entry.1
    · simp [same]
    · by_cases known : name ∈ rest.map Prod.fst <;> simp_all

theorem nodup_insert (distinct : (table.map Prod.fst).Nodup) (name : Text) (value : α) :
    ((table.insert name value).map Prod.fst).Nodup := by
  rw [map_fst_insert]
  split
  · exact distinct
  next new => exact (List.perm_append_singleton name _).nodup_iff.2 (List.nodup_cons.2 ⟨new, distinct⟩)

theorem mem_of_find? {name : Text} {value : α} (found : table.find? name = some value) :
    (name, value) ∈ table := by
  obtain ⟨before, after, split, -⟩ := List.lookup_eq_some_iff.1 found
  simp [split]

theorem find?_of_mem (distinct : (table.map Prod.fst).Nodup) {entry : Text × α} (member : entry ∈ table) :
    table.find? entry.1 = some entry.2 := by
  induction table with
  | nil => cases member
  | cons first rest ih =>
    obtain ⟨new, distinct⟩ := List.nodup_cons.1 distinct
    rw [find?_cons]
    rcases List.mem_cons.1 member with rfl | later
    · rw [if_pos rfl]
    · have other : entry.1 ≠ first.1 := fun same => new (same ▸ List.mem_map_of_mem later)
      rw [if_neg other, ih distinct later]

end Table

end ScoreScript
