import ScoreScript.Text.Printable

set_option autoImplicit false

namespace ScoreScript.Text

def hexDigits (width n : Nat) : Text :=
  let digits := Text.digits 16 n
  List.replicate (width - digits.length) (.char '0') ++ digits

def numericEscape (c : CodePoint) : Text :=
  let n := c.toNat
  if n < 0x100 then '\\' :: 'x' :: hexDigits 2 n
  else if n < 0x10000 then '\\' :: 'u' :: hexDigits 4 n
  else '\\' :: 'U' :: hexDigits 8 n

def escape (quoteMark c : CodePoint) : Text :=
  if c = quoteMark ∨ c = '\\' then ['\\', c]
  else if c = '\n' then "\\n"
  else if c = '\r' then "\\r"
  else if c = '\t' then "\\t"
  else if isPrintable c then [c]
  else numericEscape c

def quoteMark (t : Text) : CodePoint :=
  if .char '\'' ∈ t ∧ .char '"' ∉ t then '"' else '\''

def quote (t : Text) : Text :=
  quoteMark t :: t.flatMap (escape (quoteMark t)) ++ [quoteMark t]

end ScoreScript.Text
