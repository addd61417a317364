import JitGemm.Ieee.Binary

/-!
# Single precision and bfloat16
-/

namespace JitGemm

/-- A binary32 bit pattern. -/
structure Single where
  bits : UInt32
  deriving DecidableEq, Repr, Inhabited

namespace Single

open Ieee (Datum Format)

def toDatum (x : Single) : Datum := .ofBits .binary32 x.bits.toNat

def ofDatum (d : Datum) : Single := ⟨UInt32.ofNat (d.toBits .binary32)⟩

def zero : Single := ⟨0⟩

def one : Single := ⟨0x3F800000⟩

def add (x y : Single) : Single := ofDatum (x.toDatum.add y.toDatum)

def mul (x y : Single) : Single := ofDatum (x.toDatum.mul y.toDatum)

/-- `x * y + z`, rounded once. -/
def fma (x y z : Single) : Single := ofDatum ((x.toDatum.mul y.toDatum).add z.toDatum)

/-- Either zero. -/
def isZero (x : Single) : Bool := x.bits &&& 0x7FFFFFFF == 0

def isNan (x : Single) : Bool := 0x7F800000 < x.bits &&& 0x7FFFFFFF

theorem toNat_magnitude (x : Single) :
    (x.bits &&& 0x7FFFFFFF).toNat = x.bits.toNat % 0x80000000 := by
  rw [UInt32.toNat_and]
  exact Nat.and_two_pow_sub_one_eq_mod _ 31

end Single

/-- A bfloat16 bit pattern, the upper half of a single. -/
structure BFloat16 where
  bits : UInt16
  deriving DecidableEq, Repr, Inhabited

def BFloat16.toSingle (x : BFloat16) : Single := ⟨x.bits.toUInt32 <<< 16⟩

end JitGemm
