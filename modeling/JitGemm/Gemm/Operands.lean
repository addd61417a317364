import JitGemm.Gemm.Run

/-!
# Operands of a request

The two operands of each kind of call, with their elements converted to what is multiplied.
-/

namespace JitGemm

/-- What tells the two quantized entries apart: the elements of B. -/
structure IntKind (B : Type) where
  elem : ElemType
  widen : B → Int32
  /-- What the simplified route adds to B. -/
  shift : Int32

namespace IntKind

def unsigned : IntKind UInt8 where
  elem := .u8
  widen := fun x => Int32.ofNat x.toNat
  shift := 0

def signed : IntKind Int8 where
  elem := .s8
  widen := Int8.toInt32
  shift := 128

end IntKind

namespace Request

variable {α : Type}

def floatA {A : Type} (q : Request α A A) (elem : ElemType) (widen : A → α) : Operand α :=
  .of (q.shape.a elem) q.a widen

def floatB {A : Type} (q : Request α A A) (elem : ElemType) (widen : A → α) : Operand α :=
  .of (q.shape.b elem) q.b widen

/-- A less its zero point. -/
def intA {B : Type} (q : Request α Int8 B) : Operand Int32 :=
  .of (q.shape.a .s8) q.a fun x => x.toInt32 - q.zeroPoints.a.toInt32

/-- B less its zero point. -/
def intB {B : Type} (q : Request α Int8 B) (kind : IntKind B) : Operand Int32 :=
  .of (q.shape.b kind.elem) q.b fun x => kind.widen x - q.zeroPoints.b.toInt32

end Request

end JitGemm
