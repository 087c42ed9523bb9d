import ScoreScript.Number.Binary64
import ScoreScript.Text.Basic

set_option autoImplicit false

/-!
# Shortest decimal texts

A double precision number is written with the fewest digits that read back as the same number, the
nearest such decimal if there are several. Positional notation is used from one ten-thousandth up to
ten to the sixteenth.
-/

namespace ScoreScript.Binary64

structure Decimal where
  digits : Nat
  exponent : Int
deriving DecidableEq, Repr

namespace Decimal

def value (d : Decimal) : Rat :=
  let scale : Rat := (Nat.pow 10 d.exponent.natAbs : Rat)
  if d.exponent < 0 then d.digits / scale else d.digits * scale

def magnitude (d : Decimal) : Int := (Text.digits 10 d.digits).length + d.exponent

end Decimal

def decimalMagnitude (q : Rat) : Int :=
  go 700 (-330)
where
  go : Nat → Int → Int
    | 0, e => e
    | fuel + 1, e => if q < Decimal.value ⟨1, e⟩ then e else go fuel (e + 1)

/-- The two neighbours of a positive number on the decimal grid with the given number of digits, the
nearer one first; the even one first if they are equally near. -/
def neighbours (q : Rat) (digits : Nat) : List Decimal :=
  let exponent := decimalMagnitude q - digits
  let scaled := q / Decimal.value ⟨1, exponent⟩
  let below := scaled.floor.toNat
  let nearest := (roundHalfEven scaled).toNat
  let other := if nearest = below then below + 1 else below
  [⟨nearest, exponent⟩, ⟨other, exponent⟩]

def shortest (q : Rat) : Decimal :=
  let candidates := (List.range 17).flatMap fun n => neighbours q (n + 1)
  (candidates.find? fun d => ofRat d.value = number q).getD ⟨0, 0⟩

def withoutEndingZeros (digits : Text) : Text :=
  match Text.trimRight (· = '0') digits with
  | [] => "0"
  | digits => digits

def positional (digits : Text) (magnitude : Int) : Text :=
  let zeros (n : Nat) : Text := List.replicate n '0'
  match magnitude with
  | .ofNat n =>
    let padded := digits ++ zeros (n - digits.length)
    let whole := padded.take n
    let fraction := padded.drop n
    let orZero (digits : Text) : Text := if digits = [] then "0" else digits
    orZero whole ++ "." ++ orZero fraction
  | .negSucc n => "0." ++ zeros (n + 1) ++ digits

def scientific (digits : Text) (magnitude : Int) : Text :=
  let exponent := magnitude - 1
  let point : Text := if digits.length = 1 then [] else "."
  let sign : Text := if exponent < 0 then "-" else "+"
  let shown := Text.digits 10 exponent.natAbs
  let zero : Text := if shown.length = 1 then "0" else []
  digits.take 1 ++ point ++ digits.drop 1 ++ "e" ++ sign ++ zero ++ shown

def displayPositive (q : Rat) : Text :=
  let decimal := shortest q
  let digits := withoutEndingZeros (Text.digits 10 decimal.digits)
  let magnitude := decimal.magnitude
  if -4 < magnitude ∧ magnitude ≤ 16 then positional digits magnitude
  else scientific digits magnitude

def display : Binary64 → Text
  | number q =>
    if q = 0 then "0.0"
    else if q < 0 then '-' :: displayPositive (-q)
    else displayPositive q
  | negativeZero => "-0.0"
  | infinity negative => if negative then "-inf" else "inf"
  | undefined _ => "nan"

end ScoreScript.Binary64
