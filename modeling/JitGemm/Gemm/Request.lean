import JitGemm.Gemm.Arith
import JitGemm.Gemm.Check

/-!
# Requests
-/

namespace JitGemm

/-- Values added to a quantized result. -/
structure Offset where
  mode : OffsetMode
  values : Array Int32
  deriving DecidableEq, Repr

/-- What is subtracted from the elements of A and B before they are multiplied. -/
structure ZeroPoints where
  a : Int8 := 0
  b : Int8 := 0
  deriving DecidableEq, Repr

def ZeroPoints.isZero (z : ZeroPoints) : Bool := z.a == 0 && z.b == 0

/-- `C = alpha * op(A) * op(B) + beta * C`, with a bias per row or an offset. C itself is what a
call works on, so a request holds all but C. -/
structure Request (α A B : Type) where
  shape : GemmShape
  a : Array A
  b : Array B
  alpha : α
  beta : α
  bias : Option (Array α) := none
  zeroPoints : ZeroPoints := {}
  offset : Option Offset := none
  /-- Keeps the call off a vendor library. -/
  forceNocopy : Bool := false

namespace Request

/-- The view that validation takes, for a C of `lenC` elements. -/
def outline {α A B : Type} (q : Request α A B) (ar : Arith α) (elemA elemB elemC : ElemType)
    (lenC : Nat) : Outline where
  shape := q.shape
  elemA := elemA
  elemB := elemB
  elemC := elemC
  lenA := q.a.size
  lenB := q.b.size
  lenC := lenC
  lenBias := q.bias.map Array.size
  betaZero := ar.isZero q.beta
  betaText := ar.text q.beta
  offset := q.offset.map fun o => (o.mode, o.values.size)

end Request

end JitGemm
