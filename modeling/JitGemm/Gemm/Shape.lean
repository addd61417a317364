import JitGemm.Gemm.Error
import JitGemm.Size

/-!
# Shapes of operands and products

Matrices are stored column by column, `ld` elements apart. A transposed operand is stored as its
transpose, so that its rows and columns trade places in storage.
-/

namespace JitGemm

inductive Transpose where
  | noTrans
  | trans
  deriving DecidableEq, Repr

namespace Transpose

def isTrans : Transpose → Bool
  | noTrans => false
  | trans => true

def text : Transpose → String
  | noTrans => "N"
  | trans => "T"

/-- Reads `N` or `T` in either case. -/
def ofFlag (byte : UInt8) : Except GemmError Transpose :=
  if byte = 78 ∨ byte = 110 then .ok noTrans
  else if byte = 84 ∨ byte = 116 then .ok trans
  else .error (.invalidArguments (.transposeFlag byte))

end Transpose

namespace OffsetMode

/-- Reads `F`, `R` or `C` in either case. -/
def ofFlag (byte : UInt8) : Except GemmError OffsetMode :=
  if byte = 70 ∨ byte = 102 then .ok fixed
  else if byte = 82 ∨ byte = 114 then .ok rowWise
  else if byte = 67 ∨ byte = 99 then .ok columnWise
  else .error (.invalidArguments (.offsetFlag byte))

/-- Values that an offset of an `m x n` result has. -/
def requiredLen (mode : OffsetMode) (m n : Nat) : Nat :=
  match mode with
  | fixed => 1
  | rowWise => n
  | columnWise => m

/-- Position of the value for element `(i, j)`. -/
def position (mode : OffsetMode) (i j : Nat) : Nat :=
  match mode with
  | fixed => 0
  | rowWise => j
  | columnWise => i

end OffsetMode

/-- An operand as the product sees it, `rows x cols` after transposition. -/
structure Matrix where
  trans : Transpose
  rows : Nat
  cols : Nat
  ld : Nat
  elem : ElemType
  deriving DecidableEq, Repr

namespace Matrix

def rowsStored (x : Matrix) : Nat := if x.trans.isTrans then x.cols else x.rows

def colsStored (x : Matrix) : Nat := if x.trans.isTrans then x.rows else x.cols

/-- Elements from the first to the last stored one, at least the columns that a buffer must hold.
An extent past the largest size counts as the largest. -/
def requiredLen (x : Matrix) : Nat :=
  if x.rows = 0 ∨ x.cols = 0 then 0
  else Size.cap ((x.colsStored - 1) * x.ld + x.rowsStored)

/-- Position in the buffer of row `r` and column `c` after transposition, in 64-bit words. -/
def index (x : Matrix) (r c : Nat) : Nat :=
  if x.trans.isTrans then Size.wrap (c + r * x.ld) else Size.wrap (r + c * x.ld)

/-- Whether the leading dimension covers a stored column. -/
def ldValid (x : Matrix) : Bool := max x.rowsStored 1 ≤ x.ld

end Matrix

/-- The shape of one product: `m x k` times `k x n` into `m x n`. -/
structure GemmShape where
  transA : Transpose
  transB : Transpose
  m : Nat
  n : Nat
  k : Nat
  lda : Nat
  ldb : Nat
  ldc : Nat
  deriving DecidableEq, Repr

namespace GemmShape

/-- The shape with the least leading dimensions. -/
def tight (transA transB : Transpose) (m n k : Nat) : GemmShape where
  transA := transA
  transB := transB
  m := m
  n := n
  k := k
  lda := max (if transA.isTrans then k else m) 1
  ldb := max (if transB.isTrans then n else k) 1
  ldc := max m 1

def a (s : GemmShape) (elem : ElemType) : Matrix := ⟨s.transA, s.m, s.k, s.lda, elem⟩

def b (s : GemmShape) (elem : ElemType) : Matrix := ⟨s.transB, s.k, s.n, s.ldb, elem⟩

def c (s : GemmShape) (elem : ElemType) : Matrix := ⟨.noTrans, s.m, s.n, s.ldc, elem⟩

/-- No work: some extent is zero. -/
def degenerate (s : GemmShape) : Bool := s.m = 0 || s.n = 0 || s.k = 0

def extent (argument : String) (value : Int) : Except GemmError Nat :=
  if value < 0 then .error (.invalidArguments (.negative argument value)) else .ok value.toNat

/-- The shape that flag bytes and signed extents stand for; the first bad one is reported. -/
def ofFlags (transA transB : UInt8) (m n k lda ldb ldc : Int) : Except GemmError GemmShape := do
  let transA ← Transpose.ofFlag transA
  let transB ← Transpose.ofFlag transB
  let m ← extent "M" m
  let n ← extent "N" n
  let k ← extent "K" k
  let lda ← extent "lda" lda
  let ldb ← extent "ldb" ldb
  let ldc ← extent "ldc" ldc
  return ⟨transA, transB, m, n, k, lda, ldb, ldc⟩

end GemmShape

end JitGemm
