import ScoreScript.Number.Rounding
import ScoreScript.Fault

set_option autoImplicit false

/-!
# Double precision numbers

The binary format with 53 significant bits, as exact values: an operation computes the exact result
and rounds it once, to the nearest number of the format with ties to the even one. Values are kept
as rationals, so that what is computed with them can be reasoned about exactly.
-/

namespace ScoreScript

/-- A number of the format. Zero with a minus sign, the two infinities and the undefined values stand
apart from the numbers that are given by their value alone. -/
inductive Binary64 where
  | number (value : Rat)
  | negativeZero
  | infinity (negative : Bool)
  | undefined (negative : Bool)
deriving DecidableEq

namespace Binary64

instance : Inhabited Binary64 := ⟨number 0⟩

def lastPlace (q : Rat) : Int := max (floorLog2 q - 52) (-1074)

def ofRat (q : Rat) : Binary64 :=
  if q = 0 then number 0
  else
    let size := if q < 0 then -q else q
    let unit := twoPow (lastPlace size)
    let units := roundHalfEven (size / unit)
    let rounded := (units : Rat) * unit
    if twoPow 1024 ≤ rounded then infinity (q < 0)
    else if units = 0 then (if q < 0 then negativeZero else number 0)
    else number (if q < 0 then -rounded else rounded)

def ofInt (n : Int) : Binary64 := ofRat n

def toRat? : Binary64 → Option Rat
  | number q => some q
  | negativeZero => some 0
  | infinity _ | undefined _ => none

def isInfinite : Binary64 → Bool
  | infinity _ => true
  | _ => false

def ofWhole (n : Int) : Except Fault Binary64 :=
  if (ofInt n).isInfinite then .error .numberTooLarge else .ok (ofInt n)

def ofQuotient (m n : Int) : Except Fault Binary64 :=
  let quotient := ofRat (m / n : Rat)
  if quotient.isInfinite then .error .quotientTooLarge else .ok quotient

def isNegative : Binary64 → Bool
  | number q => q < 0
  | negativeZero => true
  | infinity negative | undefined negative => negative

def isZero (x : Binary64) : Bool := x.toRat? = some 0

def zero (negative : Bool) : Binary64 := if negative then negativeZero else number 0

def neg : Binary64 → Binary64
  | number q => if q = 0 then negativeZero else number (-q)
  | negativeZero => number 0
  | infinity negative => infinity !negative
  | undefined negative => undefined !negative

/-- The undefined value of an operation on numbers that has no result; its sign bit is set. An operation
on an undefined value gives that value, the first of two. -/
def noResult : Binary64 := undefined true

def add : Binary64 → Binary64 → Binary64
  | undefined a, _ => undefined a
  | _, undefined a => undefined a
  | infinity a, infinity b => if a = b then infinity a else noResult
  | infinity a, _ | _, infinity a => infinity a
  | negativeZero, negativeZero => negativeZero
  | negativeZero, number q | number q, negativeZero => number q
  | number p, number q => ofRat (p + q)

def sub (x y : Binary64) : Binary64 :=
  match y with
  | undefined _ => add x y
  | y => add x (neg y)

def rounded (negative : Bool) (q : Rat) : Binary64 :=
  if q = 0 then zero negative else ofRat q

def mul (x y : Binary64) : Binary64 :=
  let negative := x.isNegative != y.isNegative
  match x, y with
  | undefined a, _ => undefined a
  | _, undefined a => undefined a
  | infinity _, other | other, infinity _ => if other.isZero then noResult else infinity negative
  | a, b => rounded negative (a.toRat?.getD 0 * b.toRat?.getD 0)

def div (x y : Binary64) : Binary64 :=
  let negative := x.isNegative != y.isNegative
  match x, y with
  | undefined a, _ => undefined a
  | _, undefined a => undefined a
  | infinity _, infinity _ => noResult
  | infinity _, _ => infinity negative
  | _, infinity _ => zero negative
  | a, b =>
    if b.isZero then (if a.isZero then noResult else infinity negative)
    else rounded negative (a.toRat?.getD 0 / b.toRat?.getD 0)

instance : Add Binary64 := ⟨add⟩
instance : Sub Binary64 := ⟨sub⟩
instance : Mul Binary64 := ⟨mul⟩
instance : Div Binary64 := ⟨div⟩
instance (n : Nat) : OfNat Binary64 n := ⟨ofInt n⟩

def lt : Binary64 → Binary64 → Bool
  | undefined _, _ | _, undefined _ => false
  | infinity a, infinity b => a && !b
  | infinity a, _ => a
  | _, infinity b => !b
  | x, y => x.toRat?.getD 0 < y.toRat?.getD 0

def isPositive (x : Binary64) : Bool := lt 0 x

def toIntBy (round : Rat → Int) : Binary64 → Except Fault Int
  | number q => .ok (round q)
  | negativeZero => .ok 0
  | infinity _ => .error .infiniteNumber
  | undefined _ => .error .undefinedNumber

def truncate : Binary64 → Except Fault Int := toIntBy ScoreScript.truncate

def nearest : Binary64 → Except Fault Int := toIntBy roundHalfEven

def bits : Binary64 → Nat
  | number q =>
    if q = 0 then 0
    else
      let size := if q < 0 then -q else q
      let place := lastPlace size
      let units := (size / twoPow place).floor.toNat
      -- A significand with its leading bit set adds one to the exponent field.
      (if q < 0 then 1 <<< 63 else 0) + (place + 1074).toNat <<< 52 + units
  | negativeZero => 1 <<< 63
  | infinity negative => (if negative then 1 <<< 63 else 0) + 2047 <<< 52
  | undefined negative => (if negative then 1 <<< 63 else 0) + 2047 <<< 52 + 1 <<< 51

/-- The nearest number to `digits · 10 ^ exponent`. Beyond the range of the format the answer is
known without computing the power. -/
def ofDecimal (negative : Bool) (digits : Nat) (exponent : Int) : Binary64 :=
  let size : Int := (Text.digits 10 digits).length + exponent
  if digits = 0 then zero negative
  else if 400 < size then infinity negative
  else if size < -400 then zero negative
  else
    let scale : Rat := (Nat.pow 10 exponent.natAbs : Rat)
    let value : Rat := if exponent < 0 then digits / scale else digits * scale
    ofRat (if negative then -value else value)

end Binary64

end ScoreScript
