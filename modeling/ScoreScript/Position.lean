set_option autoImplicit false

namespace ScoreScript

/-- The position in a row of the given length that a number means. A result below zero lies before the
start of the row. -/
def positionIn (length : Nat) (n : Int) : Int := if n < 0 then length + n else n

theorem positionIn_of_nonneg {length : Nat} {n : Int} (nonneg : 0 ≤ n) : positionIn length n = n := by
  simp only [positionIn]; omega

def placeOf? (length : Nat) (n : Int) : Option (Fin length) :=
  let position := positionIn length n
  if inside : 0 ≤ position ∧ position < length then some ⟨position.toNat, by omega⟩ else none

def elementsFrom {α : Type} (row : List α) (n : Int) : List α :=
  row.drop (positionIn row.length n).toNat

theorem elementsFrom_natCast {α : Type} (row : List α) (i : Nat) :
    elementsFrom row (i : Int) = row.drop i := by
  simp [elementsFrom, positionIn_of_nonneg (Int.natCast_nonneg i)]

end ScoreScript
