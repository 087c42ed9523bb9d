import ScoreScript.Text.Numeral

set_option autoImplicit false

namespace ScoreScript

def clampTo (low high n : Int) : Int := max low (min high n)

def clampData (n : Int) : Int := clampTo 0 127 n

theorem clampData_nonneg (n : Int) : 0 ≤ clampData n := by
  simp only [clampData, clampTo]; omega

theorem clampData_le (n : Int) : clampData n ≤ 127 := by
  simp only [clampData, clampTo]; omega

/-- The velocity that a text asks for: a number, or with a sign a change of the current velocity. A
text without a number changes nothing. -/
def adjustVelocity (current : Int) (t : Text) : Int :=
  match Text.toInt? t with
  | none => clampData current
  | some n =>
    if .char '+' ∈ t ∨ .char '-' ∈ t then clampData (current + n) else clampData n

def decayVelocity (velocity percent floor : Int) : Int :=
  max floor (velocity - Int.fdiv (velocity * percent) 100)

end ScoreScript
