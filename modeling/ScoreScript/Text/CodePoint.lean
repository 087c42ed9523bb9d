set_option autoImplicit false

/-!
# Code points

Two 16-bit units, the surrogates, write one character beyond the basic plane. A document may name one of
them by itself. It is no character, so texts are made of code points: characters and single surrogates.
Code points and their numbers determine each other.
-/

namespace ScoreScript

inductive CodePoint where
  | char (c : Char)
  -- The surrogate at a distance from U+D800.
  | surrogate (offset : Fin 0x800)
deriving DecidableEq, Repr

namespace CodePoint

instance : Coe Char CodePoint := ⟨char⟩

def toNat : CodePoint → Nat
  | char c => c.toNat
  | surrogate offset => 0xD800 + offset

def ofNat? (n : Nat) : Option CodePoint :=
  if n.isValidChar then some (char (Char.ofNat n))
  else if surrogates : 0xD800 ≤ n ∧ n < 0xE000 then some (surrogate ⟨n - 0xD800, by omega⟩)
  else none

theorem ofNat?_toNat (p : CodePoint) : ofNat? p.toNat = some p := by
  cases p with
  | char c =>
    have valid : c.toNat.isValidChar := c.valid
    simp only [toNat, ofNat?, if_pos valid, Char.ofNat_toNat]
  | surrogate offset =>
    have invalid : ¬ (0xD800 + offset.val).isValidChar := by
      simp only [Nat.isValidChar]; omega
    have inside : 0xD800 ≤ 0xD800 + offset.val ∧ 0xD800 + offset.val < 0xE000 := by omega
    simp only [toNat, ofNat?, if_neg invalid, dif_pos inside, Nat.add_sub_cancel_left]

theorem toNat_injective {p q : CodePoint} (same : p.toNat = q.toNat) : p = q := by
  have := ofNat?_toNat p
  rw [same, ofNat?_toNat] at this
  exact (Option.some.inj this).symm

def shown : CodePoint → Char
  | char c => c
  | surrogate _ => '\uFFFD'

def isDigit (p : CodePoint) : Bool := 0x30 ≤ p.toNat && p.toNat ≤ 0x39

def isSmall (p : CodePoint) : Bool := 0x61 ≤ p.toNat && p.toNat ≤ 0x7A

def isCapital (p : CodePoint) : Bool := 0x41 ≤ p.toNat && p.toNat ≤ 0x5A

def isAlpha (p : CodePoint) : Bool := p.isSmall || p.isCapital

def isAlphanum (p : CodePoint) : Bool := p.isAlpha || p.isDigit

def toLower : CodePoint → CodePoint
  | char c => char c.toLower
  | surrogate offset => surrogate offset

example : ofNat? 0xD83C = some (surrogate 0x3C) := by decide

example : ofNat? 0x1F3B5 = some (char '🎵') ∧ ofNat? 0x110000 = none := by decide

end CodePoint

abbrev Text := List CodePoint

namespace Text

def of (s : String) : Text := s.toList.map .char

instance : Coe String Text := ⟨of⟩

def digits (base n : Nat) : Text := (Nat.toDigits base n).map .char

def shown (t : Text) : String := String.ofList (t.map CodePoint.shown)

end Text

end ScoreScript
