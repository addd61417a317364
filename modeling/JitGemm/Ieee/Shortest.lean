import JitGemm.Ieee.Single

/-!
# Shortest decimals

A number is written with the fewest digits that read back as the same number, the nearest such
decimal, positionally and without exponent. A decimal reads back when it lies between the midpoints
to the neighbouring numbers; the midpoints count when the significand is even.
-/

namespace JitGemm.Ieee

/-- The decimal `digits * 10 ^ power`. -/
structure Decimal where
  digits : Nat
  power : Int
  deriving DecidableEq, Repr

/-- A positive number with the reals that round to it, as multiples of `unit / scale`. -/
structure Rounding where
  value : Nat
  below : Nat
  above : Nat
  scale : Nat
  /-- Whether the ends belong to it. -/
  closed : Bool
  deriving DecidableEq, Repr

namespace Rounding

/-- The gap below the least significand of a binade is half as wide, but for the smallest
numbers. -/
def of (f : Format) (m : Nat) (e : Int) : Rounding :=
  let lower := if m = 1 <<< (f.precision - 1) ∧ f.quantum < e then 1 else 2
  let up := (e - 2).toNat
  { value := (4 * m) <<< up, below := (4 * m - lower) <<< up, above := (4 * m + 2) <<< up
    scale := 1 <<< (2 - e).toNat, closed := m % 2 = 0 }

/-- Compares the number `n` of `1 / scale` with a decimal. -/
def compareTo (r : Rounding) (n : Nat) (d : Decimal) : Ordering :=
  compare (n * Nat.pow 10 (-d.power).toNat) (d.digits * Nat.pow 10 d.power.toNat * r.scale)

def holds (r : Rounding) (d : Decimal) : Bool :=
  match r.compareTo r.below d, r.compareTo r.above d with
  | .lt, .gt => true
  | .eq, _ | _, .eq => r.closed
  | _, _ => false

/-- The decimal just below or at the value on the grid of a power of ten. -/
def floorAt (r : Rounding) (power : Int) : Decimal :=
  ⟨(r.value * Nat.pow 10 (-power).toNat) / (Nat.pow 10 power.toNat * r.scale), power⟩

/-- Of the two neighbours on a grid, the one that reads back; of two, the nearer, and the upper one
of a tie. -/
def onGrid? (r : Rounding) (power : Int) : Option Decimal :=
  let lo := r.floorAt power
  let hi : Decimal := ⟨lo.digits + 1, power⟩
  match r.holds lo, r.holds hi with
  | true, false => some lo
  | false, true => some hi
  | false, false => none
  | true, true =>
    let middle : Decimal := ⟨2 * lo.digits + 1, power⟩
    if r.compareTo (2 * r.value) middle = .lt then some lo else some hi

/-- Decimal places that show a digit of every number in use. -/
def places : Nat := 64

/-- Number of digits before the decimal point, negative for zeros behind it. -/
def magnitude (r : Rounding) : Int :=
  ((r.value * Nat.pow 10 places / r.scale).repr.length : Int) - places

/-- The first grid that holds a decimal, from coarse to fine. -/
def shortestFrom (r : Rounding) : Nat → Int → Decimal
  | 0, power => r.floorAt power
  | fuel + 1, power =>
    match r.onGrid? power with
    | some d => d
    | none => shortestFrom r fuel (power - 1)

def shortest (r : Rounding) : Decimal := r.shortestFrom 20 (r.magnitude - 1)

end Rounding

/-- Positional digits, without a point when the number is whole. -/
def Decimal.text (d : Decimal) : String :=
  if 0 ≤ d.power then d.digits.repr ++ String.ofList (List.replicate d.power.toNat '0') else
    let behind := (-d.power).toNat
    let ds := d.digits.repr.toList
    let padded := List.replicate (behind + 1 - ds.length) '0' ++ ds
    let whole := padded.take (padded.length - behind)
    let fraction := (padded.drop (padded.length - behind)).reverse.dropWhile (· == '0')
    String.ofList (if fraction.isEmpty then whole else whole ++ '.' :: fraction.reverse)

/-- The text of a number, with a sign also before a negative zero. -/
def Datum.text (f : Format) : Datum → String
  | .nan => "NaN"
  | .inf negative => if negative then "-inf" else "inf"
  | .finite negative m e =>
    (if negative then "-" else "") ++
      if m = 0 then "0" else (Rounding.of f m e).shortest.text

end JitGemm.Ieee

def JitGemm.Single.text (x : JitGemm.Single) : String := x.toDatum.text .binary32
