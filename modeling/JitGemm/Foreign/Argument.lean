import JitGemm.Gemm.Operands

/-!
# Arguments of foreign calls

Foreign callers pass flags, scalars and buffers by pointer, and any pointer may be null. A call is
read argument by argument in a fixed order, and the first bad one refuses it. An operand of no
elements is never looked at, so its pointer may be null.
-/

namespace JitGemm.Foreign

/-- What a pointer leads to; `none` is null. -/
abbrev Pointer (β : Type) := Option β

namespace Pointer

variable {β : Type}

/-- The value at a pointer that must not be null. -/
def read (p : Pointer β) (argument : String) : Except GemmError β :=
  match p with
  | some x => .ok x
  | none => .error (.invalidArguments (.null argument))

/-- The first `length` elements at a pointer. -/
def elements (p : Pointer (Array β)) (length : Nat) (argument : String) :
    Except GemmError (Array β) :=
  if length = 0 then .ok #[] else (·.extract 0 length) <$> read p argument

end Pointer

/-! ## Shapes -/

structure ShapeArguments where
  transA : Pointer UInt8 := none
  transB : Pointer UInt8 := none
  m : Pointer Int64 := none
  n : Pointer Int64 := none
  k : Pointer Int64 := none
  lda : Pointer Int64 := none
  ldb : Pointer Int64 := none
  ldc : Pointer Int64 := none
  deriving DecidableEq, Repr

/-- A shape and how many elements each of its operands spans. -/
structure Extents where
  shape : GemmShape
  a : Nat
  b : Nat
  c : Nat
  deriving DecidableEq, Repr

/-- Elements that an operand spans, if they can be counted within one object. -/
def span (operand : String) (x : Matrix) : Except GemmError Nat :=
  if x.requiredLen ≤ Size.objectLimit then .ok x.requiredLen
  else .error (.invalidArguments (.extentOverflow operand))

namespace ShapeArguments

/-- All pointers are looked at before any value is judged. -/
def shape (x : ShapeArguments) : Except GemmError GemmShape := do
  let transA ← x.transA.read "transa"
  let transB ← x.transB.read "transb"
  let m ← x.m.read "M"
  let n ← x.n.read "N"
  let k ← x.k.read "K"
  let lda ← x.lda.read "lda"
  let ldb ← x.ldb.read "ldb"
  let ldc ← x.ldc.read "ldc"
  GemmShape.ofFlags transA transB m.toInt n.toInt k.toInt lda.toInt ldb.toInt ldc.toInt

def extents (x : ShapeArguments) (elemA elemB elemC : ElemType) : Except GemmError Extents := do
  let shape ← x.shape
  let a ← span "A" (shape.a elemA)
  let b ← span "B" (shape.b elemB)
  let c ← span "C" (shape.c elemC)
  return ⟨shape, a, b, c⟩

end ShapeArguments

/-! ## Calls -/

/-- A call as it was read: the request, and the part of C that it works on. -/
structure Decoded (α A B γ : Type) where
  request : Request α A B
  c : Array γ

structure RealCall (α A : Type) where
  shape : ShapeArguments
  alpha : Pointer α := none
  beta : Pointer α := none
  a : Pointer (Array A) := none
  b : Pointer (Array A) := none
  c : Pointer (Array α) := none
  /-- One value per row, or null for no bias. -/
  bias : Pointer (Array α) := none
  forceNocopy : Bool := false

/-- Reads a real product of operands with elements of type `elem`. -/
def RealCall.decode {α A : Type} (x : RealCall α A) (elem : ElemType) :
    Except GemmError (Decoded α A A α) := do
  let extents ← x.shape.extents elem elem .f32
  let alpha ← x.alpha.read "alpha"
  let beta ← x.beta.read "beta"
  let a ← x.a.elements extents.a "A"
  let b ← x.b.elements extents.b "B"
  let c ← x.c.elements extents.c "C"
  let bias ← match x.bias with
    | none => pure none
    | some _ => some <$> x.bias.elements extents.shape.m "bias"
  return {
    request := { shape := extents.shape, a, b, alpha, beta, bias, forceNocopy := x.forceNocopy }
    c }

/-- A quantized product of signed elements with elements of `B`. -/
structure QuantizedCall (α B : Type) where
  shape : ShapeArguments
  offsetMode : Pointer UInt8 := none
  alpha : Pointer α := none
  beta : Pointer α := none
  zeroA : Pointer Int8 := none
  zeroB : Pointer Int8 := none
  a : Pointer (Array Int8) := none
  b : Pointer (Array B) := none
  c : Pointer (Array Int32) := none
  offset : Pointer (Array Int32) := none

/-- Reads a quantized product. The offset mode comes before all else. -/
def QuantizedCall.decode {α B : Type} (x : QuantizedCall α B) (kind : IntKind B) :
    Except GemmError (Decoded α Int8 B Int32) := do
  let mode ← OffsetMode.ofFlag (← x.offsetMode.read "offsetc")
  let extents ← x.shape.extents .s8 kind.elem .s32
  let alpha ← x.alpha.read "alpha"
  let beta ← x.beta.read "beta"
  let zeroA ← x.zeroA.read "ao"
  let zeroB ← x.zeroB.read "bo"
  let a ← x.a.elements extents.a "A"
  let b ← x.b.elements extents.b "B"
  let c ← x.c.elements extents.c "C"
  let values ← x.offset.elements (mode.requiredLen extents.shape.m extents.shape.n) "co"
  return {
    request := {
      shape := extents.shape, a, b, alpha, beta
      zeroPoints := ⟨zeroA, zeroB⟩
      offset := some ⟨mode, values⟩ }
    c }

end JitGemm.Foreign
