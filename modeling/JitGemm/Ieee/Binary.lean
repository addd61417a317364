/-!
# Binary floating point

Bit patterns of the binary interchange formats, their values, and correctly rounded arithmetic.
Sums and products are formed exactly and rounded once, to nearest with ties to even. All NaNs are
one value.
-/

namespace JitGemm.Ieee

structure Format where
  /-- Bits of a significand, the leading one included. -/
  precision : Nat
  exponentBits : Nat
  deriving DecidableEq, Repr

namespace Format

def binary32 : Format := ⟨24, 8⟩
def binary64 : Format := ⟨53, 11⟩

/-- Exponent of the last place of the smallest numbers. -/
def quantum (f : Format) : Int := 3 - (1 <<< (f.exponentBits - 1) : Nat) - f.precision

def infinity (f : Format) : Nat := (1 <<< f.exponentBits - 1) <<< (f.precision - 1)

/-- Weight of the sign bit. -/
def signBit (f : Format) : Nat := 1 <<< (f.precision - 1 + f.exponentBits)

end Format

/-- A number is `mantissa * 2 ^ exponent` with a sign, which zero has too. -/
inductive Datum where
  | nan
  | inf (negative : Bool)
  | finite (negative : Bool) (mantissa : Nat) (exponent : Int)
  deriving DecidableEq, Repr

/-- `m / 2 ^ s` to the nearest integer, ties to even. -/
def shiftRound (m s : Nat) : Nat :=
  let q := m >>> s
  let twice := 2 * (m - q <<< s)
  if twice < 1 <<< s then q
  else if 1 <<< s < twice then q + 1
  else q + q % 2

namespace Datum

def ofInt (i : Int) : Datum := .finite (i < 0) i.natAbs 0

/-! ## Exact arithmetic -/

def mul : Datum → Datum → Datum
  | .nan, _ | _, .nan => .nan
  | .inf s, .inf t => .inf (s != t)
  | .inf s, .finite t m _ | .finite t m _, .inf s => if m = 0 then .nan else .inf (s != t)
  | .finite s m e, .finite t n f => .finite (s != t) (m * n) (e + f)

/-- Signed mantissa on the grid of `grid`, which is at most the exponent. -/
def scaled (negative : Bool) (m : Nat) (e grid : Int) : Int :=
  let n : Int := m <<< (e - grid).toNat
  if negative then -n else n

/-- An exact sum of zero is negative only when both terms are. -/
def add : Datum → Datum → Datum
  | .nan, _ | _, .nan => .nan
  | .inf s, .inf t => if s = t then .inf s else .nan
  | .inf s, .finite .. | .finite .., .inf s => .inf s
  | .finite s m e, .finite t n f =>
    let grid := min e f
    let sum := scaled s m e grid + scaled t n f grid
    .finite (if sum = 0 then s && t else sum < 0) sum.natAbs grid

/-! ## Bit patterns -/

def ofBits (f : Format) (bits : Nat) : Datum :=
  let fraction := bits % 1 <<< (f.precision - 1)
  let exponent := (bits >>> (f.precision - 1)) % 1 <<< f.exponentBits
  let negative := bits.testBit (f.precision - 1 + f.exponentBits)
  if exponent = 1 <<< f.exponentBits - 1 then
    if fraction = 0 then .inf negative else .nan
  else if exponent = 0 then .finite negative fraction f.quantum
  else .finite negative (1 <<< (f.precision - 1) + fraction) (f.quantum + exponent - 1)

/-- Bit pattern of the magnitude nearest to `m * 2 ^ e`. With the exponent of the last place chosen
first, exponent field and rounded significand add up to the pattern, also where rounding carries
into the next binade; patterns past the largest number are infinity. -/
def magnitudeBits (f : Format) (m : Nat) (e : Int) : Nat :=
  if m = 0 then 0 else
    let place := max (e + m.log2 + 1 - f.precision) f.quantum
    let significand :=
      if place ≤ e then m <<< (e - place).toNat else shiftRound m (place - e).toNat
    min ((place - f.quantum).toNat <<< (f.precision - 1) + significand) f.infinity

def toBits (f : Format) : Datum → Nat
  | .nan => f.infinity + 1 <<< (f.precision - 2)
  | .inf negative => (if negative then f.signBit else 0) + f.infinity
  | .finite negative m e => (if negative then f.signBit else 0) + magnitudeBits f m e

/-- The value of the format nearest to a datum. -/
def round (f : Format) (d : Datum) : Datum := ofBits f (toBits f d)

/-- Nearest integer, ties to even; none for what is no number. -/
def nearestInt? : Datum → Option Int
  | .finite negative m e =>
    let n : Int := if 0 ≤ e then m <<< e.toNat else shiftRound m (-e).toNat
    some (if negative then -n else n)
  | _ => none

end Datum

end JitGemm.Ieee
