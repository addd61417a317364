import JitGemm.Ieee.Shortest

/-!
# Arithmetic of a product

Everything that products need to know about real numbers, as one record of operations. The routes
are written over any such record; `Single.arith` is the one of IEEE single precision.
-/

namespace JitGemm

structure Arith (α : Type) where
  zero : α
  mul : α → α → α
  add : α → α → α
  /-- `x * y + z` in one operation. -/
  fma : α → α → α → α
  /-- Compares equal to zero. -/
  isZero : α → Bool
  ofBf16 : BFloat16 → α
  /-- A quantized element from its integer sum, alpha, beta, old value and offset. -/
  quantize : Int32 → α → α → Int32 → Int32 → Int32
  text : α → String

open Ieee (Datum)

/-- Nearest 32-bit integer, ties to even. Out of range goes to the nearer end and NaN to zero. -/
def Ieee.Datum.toInt32 (d : Datum) : Int32 :=
  match d, d.nearestInt? with
  | _, some i => Int32.ofInt (max (min i 2147483647) (-2147483648))
  | .inf negative, none => if negative then Int32.minValue else Int32.maxValue
  | _, none => 0

namespace Single

/-- `alpha * sum + beta * old + offset` in double precision, each operation rounded, and then
rounded to an integer. A beta of zero leaves the old value unread. -/
def quantize (sum : Int32) (alpha beta : Single) (old offset : Int32) : Int32 :=
  let round := Datum.round .binary64
  let scaled := round (alpha.toDatum.mul (.ofInt sum.toInt))
  let kept :=
    if beta.isZero then scaled
    else round (scaled.add (round (beta.toDatum.mul (.ofInt old.toInt))))
  (round (kept.add (.ofInt offset.toInt))).toInt32

def arith : Arith Single where
  zero := zero
  mul := mul
  add := add
  fma := fma
  isZero := isZero
  ofBf16 := BFloat16.toSingle
  quantize := quantize
  text := Single.text

end Single

end JitGemm
