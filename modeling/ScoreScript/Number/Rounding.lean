set_option autoImplicit false

namespace ScoreScript

def truncate (q : Rat) : Int :=
  if q < 0 then q.ceil else q.floor

def roundHalfEven (q : Rat) : Int :=
  let below := q.floor
  let rest := q - below
  if rest < 1 / 2 then below
  else if 1 / 2 < rest then below + 1
  else if below % 2 = 0 then below
  else below + 1

def twoPow (e : Int) : Rat :=
  match e with
  | .ofNat n => ((1 <<< n : Nat) : Rat)
  | .negSucc n => 1 / ((1 <<< (n + 1) : Nat) : Rat)

def floorLog2 (q : Rat) : Int :=
  let guess : Int := (Nat.log2 q.num.natAbs : Int) - (Nat.log2 q.den : Int)
  if q < twoPow guess then guess - 1 else guess

end ScoreScript
