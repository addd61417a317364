import JitGemm.Gemm.Shape

/-!
# Validation

Validation looks at shape, buffer lengths, bias and offset, in one fixed order, and at no element.
It is done before anything is written.
-/

namespace JitGemm

/-- What validation sees of a call. -/
structure Outline where
  shape : GemmShape
  elemA : ElemType
  elemB : ElemType
  elemC : ElemType
  lenA : Nat
  lenB : Nat
  lenC : Nat
  lenBias : Option Nat
  /-- Whether beta compares equal to zero. -/
  betaZero : Bool
  betaText : String
  offset : Option (OffsetMode × Nat)
  deriving DecidableEq, Repr

namespace Outline

def checkLd (argument : String) (x : Matrix) : Except GemmError Unit :=
  if x.ldValid then .ok ()
  else .error (.invalidArguments (.leadingDimension argument x.ld x.rowsStored))

def checkLen (operand : String) (x : Matrix) (length : Nat) : Except GemmError Unit :=
  if x.requiredLen ≤ length then .ok ()
  else .error
    (.invalidArguments (.shortOperand operand length x.rows x.cols x.elem x.requiredLen))

/-- A bias has a value per row and excludes beta. -/
def checkBias (c : Outline) : Except GemmError Unit :=
  match c.lenBias with
  | none => .ok ()
  | some length =>
    if length < c.shape.m then .error (.invalidArguments (.shortBias length c.shape.m))
    else if c.betaZero then .ok ()
    else .error (.unimplemented (.biasWithBeta c.betaText))

/-- Leading dimensions, then lengths, then the bias. -/
def check (c : Outline) : Except GemmError Unit := do
  let a := c.shape.a c.elemA
  let b := c.shape.b c.elemB
  let out := c.shape.c c.elemC
  checkLd "lda" a
  checkLd "ldb" b
  checkLd "ldc" out
  checkLen "A" a c.lenA
  checkLen "B" b c.lenB
  checkLen "C" out c.lenC
  c.checkBias

def checkOffset (c : Outline) : Except GemmError Unit :=
  match c.offset with
  | none => .error (.invalidArguments .noOffset)
  | some (mode, length) =>
    let needed := mode.requiredLen c.shape.m c.shape.n
    if length < needed then .error (.invalidArguments (.shortOffset mode length needed))
    else .ok ()

/-- Quantized products need an output offset, which is looked at first. -/
def checkQuantized (c : Outline) : Except GemmError Unit := do
  c.checkOffset
  c.check

end Outline

end JitGemm
