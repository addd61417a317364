import JitGemm.Size
import JitGemm.Text.Blank

/-!
# Counts

Decimal counts as settings write them: blanks around, an optional plus sign, at least one digit,
and a value that fits a 64-bit word.
-/

namespace JitGemm.Text

def digit? (c : Char) : Option Nat :=
  if '0' ≤ c ∧ c ≤ '9' then some (c.toNat - '0'.toNat) else none

/-- Value of a digit string read after `acc`. -/
def digitsFrom? : Nat → List Char → Option Nat
  | acc, [] => some acc
  | acc, c :: cs => (digit? c).bind fun d => digitsFrom? (acc * 10 + d) cs

def unsigned? : List Char → Option Nat
  | [] => none
  | cs => (digitsFrom? 0 cs).filter (· ≤ Size.limit)

def count? (s : String) : Option Nat :=
  match trimList s.toList with
  | '+' :: cs => unsigned? cs
  | cs => unsigned? cs

/-- A setting that must be positive; anything else counts as unset. -/
def positiveCount? (s : String) : Option Nat := (count? s).filter (0 < ·)

end JitGemm.Text
