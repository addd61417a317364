/-!
# Bytes of words

Words are stored least significant byte first.
-/

namespace JitGemm.Code

def le32 (w : UInt32) : List UInt8 :=
  [w.toUInt8, (w >>> 8).toUInt8, (w >>> 16).toUInt8, (w >>> 24).toUInt8]

def le64 (w : UInt64) : List UInt8 := le32 w.toUInt32 ++ le32 (w >>> 32).toUInt32

/-- The word of four bytes, the least significant one first. -/
def word32 (a b c d : UInt8) : UInt32 :=
  a.toUInt32 ||| b.toUInt32 <<< 8 ||| c.toUInt32 <<< 16 ||| d.toUInt32 <<< 24

@[simp] theorem length_le32 (w : UInt32) : (le32 w).length = 4 := rfl

@[simp] theorem length_le64 (w : UInt64) : (le64 w).length = 8 := rfl

/-- Overwrites consecutive bytes; bytes that would fall past the end are lost. -/
def write (bytes : Array UInt8) (position : Nat) : List UInt8 → Array UInt8
  | [] => bytes
  | b :: bs => write (bytes.setIfInBounds position b) (position + 1) bs

@[simp] theorem size_write (bytes : Array UInt8) (position : Nat) (bs : List UInt8) :
    (write bytes position bs).size = bytes.size := by
  induction bs generalizing bytes position with
  | nil => rfl
  | cons b bs ih => simp [write, ih]

/-- The word at `position`; bytes past the end read as zero. -/
def read32 (bytes : Array UInt8) (position : Nat) : UInt32 :=
  word32 (bytes.getD position 0) (bytes.getD (position + 1) 0) (bytes.getD (position + 2) 0)
    (bytes.getD (position + 3) 0)

end JitGemm.Code
