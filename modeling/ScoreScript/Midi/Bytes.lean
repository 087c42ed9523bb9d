import ScoreScript.Fault

set_option autoImplicit false

namespace ScoreScript.Midi

def bigEndian (count n : Nat) : List Nat :=
  (List.range count).reverse.map fun place => n >>> (8 * place) % 256

def upperGroups (n : Nat) : List Nat :=
  if n = 0 then [] else upperGroups (n / 128) ++ [128 + n % 128]

def variableLength (n : Nat) : List Nat := upperGroups (n / 128) ++ [n % 128]

def latin1 (t : Text) : Except Fault (List Nat) :=
  if t.all fun c => c.toNat < 256 then .ok (t.map CodePoint.toNat) else .error .textNotLatin

end ScoreScript.Midi
