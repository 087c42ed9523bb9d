import ScoreScript.Number.Binary64
import ScoreScript.Text.Blank
import ScoreScript.Text.Digit

set_option autoImplicit false

/-!
# Numerals

Whole numbers: blanks around, one sign, decimal digits of any script, single underscores between
digits, at most 4300 digits. Numbers with a decimal point: the same digits before and after the
point, and an exponent.
-/

namespace ScoreScript.Text

/-- Blanks that may surround a numeral: white space except the four information separators. -/
def isNumeralBlank (c : CodePoint) : Bool :=
  isBlank c && !(0x1C ≤ c.toNat && c.toNat ≤ 0x1F)

def digitRun? (t : Text) : Option (List Nat) :=
  let runs := t.splitOn (.char '_')
  if [] ∈ runs then none else (runs.flatten).mapM digitValue?

def ofDigits (digits : List Nat) : Nat :=
  digits.foldl (fun value digit => 10 * value + digit) 0

def splitSign : Text → Bool × Text
  | .char '-' :: rest => (true, rest)
  | .char '+' :: rest => (false, rest)
  | t => (false, t)

def digitLimit : Nat := 4300

/-- Reads a whole number. Too many digits are a fault whatever follows them. -/
def readInt (t : Text) : Except Fault Int :=
  let (negative, rest) := splitSign (t.dropWhile isNumeralBlank)
  let run := rest.takeWhile fun (c : CodePoint) => (digitValue? c).isSome || c = '_'
  match digitRun? run with
  | none => .error (.notANumeral t)
  | some digits =>
    if digitLimit < digits.length then .error (.numeralTooLong digits.length)
    else if (rest.drop run.length).all isNumeralBlank then
      .ok (if negative then -ofDigits digits else ofDigits digits)
    else .error (.notANumeral t)

def toInt? (t : Text) : Option Int := (readInt (trim t)).toOption

def isNumeral (t : Text) : Bool := (toInt? t).isSome

def toIntOrZero (t : Text) : Int := (toInt? t).getD 0

def digitRunOrEmpty? (t : Text) : Option (List Nat) :=
  if t = [] then some [] else digitRun? t

def readExponent? (t : Text) : Option Int :=
  let (negative, rest) := splitSign t
  (digitRun? rest).map fun digits => if negative then -ofDigits digits else ofDigits digits

def cutExponent (t : Text) : Text × Option Text :=
  let mantissa := t.takeWhile fun (c : CodePoint) => c ≠ 'e' && c ≠ 'E'
  match t.drop mantissa.length with
  | [] => (mantissa, none)
  | _ :: exponent => (mantissa, some exponent)

def readDecimal? (t : Text) : Option Binary64 := do
  let (negative, rest) := splitSign (trimBoth isNumeralBlank t)
  let (mantissa, exponent) := cutExponent rest
  let (whole, fraction) := cut '.' mantissa
  let whole ← digitRunOrEmpty? whole
  let fraction ← digitRunOrEmpty? (fraction.getD [])
  let exponent ← match exponent with
    | none => some 0
    | some exponent => readExponent? exponent
  if whole ++ fraction = [] then none
  else some (.ofDecimal negative (ofDigits (whole ++ fraction)) (exponent - fraction.length))

end ScoreScript.Text
