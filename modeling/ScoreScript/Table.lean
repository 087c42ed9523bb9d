import ScoreScript.Text.Basic

set_option autoImplicit false

namespace ScoreScript

abbrev Table (α : Type) := List (Text × α)

namespace Table

variable {α : Type}

def find? (table : Table α) (name : Text) : Option α := List.lookup name table

def contains (table : Table α) (name : Text) : Bool := (table.find? name).isSome

def insert (table : Table α) (name : Text) (value : α) : Table α :=
  match table with
  | [] => [(name, value)]
  | (key, old) :: rest =>
    if name = key then (key, value) :: rest else (key, old) :: insert rest name value

def insertIfNew (table : Table α) (name : Text) (value : α) : Table α :=
  if table.contains name then table else table ++ [(name, value)]

@[simp] theorem find?_nil (name : Text) : find? ([] : Table α) name = none := rfl

theorem find?_cons (key name : Text) (value : α) (rest : Table α) :
    find? ((key, value) :: rest) name = if name = key then some value else find? rest name := by
  by_cases same : name = key
  · simp [find?, same]
  · have differ : (name == key) = false := by simpa using same
    simp [find?, List.lookup_cons, same, differ]

theorem find?_insert (table : Table α) (name key : Text) (value : α) :
    find? (table.insert name value) key = if key = name then some value else find? table key := by
  induction table with
  | nil => simp [insert, find?_cons]
  | cons entry rest ih =>
    obtain ⟨first, old⟩ := entry
    by_cases same : name = first
    · subst same
      by_cases hit : key = name <;> simp [insert, find?_cons, hit]
    · by_cases hit : key = first
      · subst hit
        simp [insert, find?_cons, same, Ne.symm same]
      · simp [insert, find?_cons, same, hit, ih]

theorem find?_insertIfNew (table : Table α) (name key : Text) (value : α) :
    find? (table.insertIfNew name value) key =
      (find? table key).or (if key = name then some value else none) := by
  have append (left right : Table α) :
      find? (left ++ right) key = (find? left key).or (find? right key) := by
    induction left with
    | nil => simp
    | cons entry rest ih =>
      obtain ⟨first, old⟩ := entry
      by_cases hit : key = first <;> simp [find?_cons, hit, ih]
  unfold insertIfNew contains
  by_cases known : (table.find? name).isSome = true
  · rw [if_pos known]
    by_cases same : key = name
    · subst same
      obtain ⟨old, found⟩ := Option.isSome_iff_exists.1 known
      simp [found]
    · simp [same]
  · rw [if_neg known, append, find?_cons, find?_nil]

end Table

end ScoreScript
