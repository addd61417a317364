import JitGemm.Gemm.Operands

/-!
# The reference kernels

Three plain loops, column by column. These fix what the other routes compute.
-/

namespace JitGemm.Reference

variable {α : Type} (ar : Arith α)

/-- Sum of products over the steps, from the first on. -/
def dot {γ : Type} (a b : Operand α) (k i j : Nat) : Run γ α :=
  (List.range k).foldlM (fun acc p => do
    let x ← a.entry i p
    let y ← b.entry p j
    return ar.add acc (ar.mul x y)) ar.zero

/-- Adds beta times the old value at a position; a beta of zero leaves it unread. -/
def keepOld (beta v : α) (position : Nat) : Run α α :=
  if ar.isZero beta then pure v else do
    let old ← Run.read position
    return ar.add v (ar.mul beta old)

def withBias (bias : Option (Array α)) (v : α) (i : Nat) : Run α α :=
  match bias with
  | none => pure v
  | some bias => do
    let x ← Run.fetch bias i
    return ar.add v x

/-- One element: alpha, then beta, then the bias. -/
def floatElement (a b : Operand α) (k : Nat) (alpha beta : α) (bias : Option (Array α))
    (column : Panel) (i j : Nat) : Run α Unit := do
  let acc ← dot ar a b k i j
  let position ← column.cell i
  let kept ← keepOld ar beta (ar.mul alpha acc) position
  let value ← withBias ar bias kept i
  Run.write position value

/-- Real products on operands already widened. -/
def float {A B : Type} (team : Work.Team) (q : Request α A B) (a b : Operand α) : Run α Unit :=
  Run.overPanels team q.shape.ldc 1 q.shape.n fun j column =>
    (List.range q.shape.m).forM fun i =>
      floatElement ar a b q.shape.k q.alpha q.beta q.bias column i j

/-- Wrapping sum of the products of what is left after the zero points. -/
def intDot {γ : Type} (a b : Operand Int32) (k i j : Nat) : Run γ Int32 :=
  (List.range k).foldlM (fun acc p => do
    let x ← a.entry i p
    let y ← b.entry p j
    return acc + x * y) 0

/-- Offset of element `(i, j)`, zero without one. -/
def offsetAt {γ : Type} (offset : Option Offset) (i j : Nat) : Run γ Int32 :=
  match offset with
  | none => pure 0
  | some o => Run.fetch o.values (o.mode.position i j)

/-- Enters the sum of element `(i, j)` at a position of C. -/
def writeQuantized (alpha beta : α) (offset : Option Offset) (position i j : Nat) (sum : Int32) :
    Run Int32 Unit := do
  let co ← offsetAt offset i j
  let old ← Run.read position
  Run.write position (ar.quantize sum alpha beta old co)

/-- Quantized products on operands with their zero points taken off. -/
def int {A B : Type} (team : Work.Team) (q : Request α A B) (a b : Operand Int32) :
    Run Int32 Unit :=
  Run.overPanels team q.shape.ldc 1 q.shape.n fun j column =>
    (List.range q.shape.m).forM fun i => do
      let sum ← intDot a b q.shape.k i j
      writeQuantized ar q.alpha q.beta q.offset (← column.cell i) i j sum

/-- Adds the bias to every column, as a pass of its own. Rows past the bias stay as they are. -/
def addBias (team : Work.Team) (s : GemmShape) (bias : Array α) : Run α Unit :=
  Run.overPanels team s.ldc 1 s.n fun _ column =>
    (List.range (min s.m (min column.length bias.size))).forM fun i => do
      let position ← column.cell i
      let old ← Run.read position
      Run.write position (ar.add old (← Run.fetch bias i))

/-! ## By entry -/

def sgemm (team : Work.Team) (q : Request α α α) : Run α Unit :=
  float ar team q (q.floatA .f32 id) (q.floatB .f32 id)

def bf16 (team : Work.Team) (q : Request α BFloat16 BFloat16) : Run α Unit :=
  float ar team q (q.floatA .bf16 ar.ofBf16) (q.floatB .bf16 ar.ofBf16)

def igemm {B : Type} (kind : IntKind B) (team : Work.Team) (q : Request α Int8 B) :
    Run Int32 Unit :=
  int ar team q q.intA (q.intB kind)

end JitGemm.Reference
