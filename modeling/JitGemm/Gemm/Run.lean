import JitGemm.Gemm.Request
import JitGemm.Work.Team

/-!
# Runs over C

A run reads operands and writes C element by element. Every access is checked, and a fault leaves
C as it was at that moment. C is cut into panels of whole columns; the members of a team share the
panels, and each panel is worked on once. Memory is taken to be there for every buffer that is no
larger than an object can be.
-/

namespace JitGemm

inductive RunFault where
  /-- An access past the end of a buffer or panel. -/
  | outOfBounds
  /-- Panels of no elements. -/
  | emptyPanels
  /-- A buffer of more bytes than one object has. -/
  | oversized
  deriving DecidableEq, Repr

/-- Work on a C with elements of `γ`. -/
abbrev Run (γ : Type) := EStateM RunFault (Array γ)

namespace Run

variable {γ : Type}

def fetch {β : Type} (xs : Array β) (i : Nat) : Run γ β :=
  match xs[i]? with
  | some x => pure x
  | none => throw .outOfBounds

def read (i : Nat) : Run γ γ := do fetch (← get) i

def write (i : Nat) (v : γ) : Run γ Unit := fun c =>
  if i < c.size then .ok () (c.setIfInBounds i v) else .error .outOfBounds c

/-- Bytes of an f32 or i32, the values that packed operands and tiles hold. -/
def valueBytes : Nat := 4

/-- A new buffer of zeros. Its length is a 64-bit product. -/
def zeros {V : Type} (zero : V) (length : Nat) : Run γ (Array V) :=
  let length := Size.wrap length
  if length * valueBytes ≤ Size.objectLimit then pure (Array.replicate length zero)
  else throw .oversized

/-- Work on a buffer of its own, which C has no part in. -/
def onBuffer {V : Type} (buffer : Array V) (work : Run V Unit) : Run γ (Array V) :=
  match work.run buffer with
  | .ok _ filled => pure filled
  | .error fault _ => throw fault

end Run

/-- An operand through its shape and a conversion of its elements. -/
structure Operand (V : Type) where
  matrix : Matrix
  element? : Nat → Option V

namespace Operand

def of {A V : Type} (matrix : Matrix) (xs : Array A) (convert : A → V) : Operand V :=
  ⟨matrix, fun i => xs[i]?.map convert⟩

/-- Element at row `r` and column `c` after transposition. -/
def lookup? {V : Type} (x : Operand V) (r c : Nat) : Option V := x.element? (x.matrix.index r c)

def entry {V γ : Type} (x : Operand V) (r c : Nat) : Run γ V :=
  match x.lookup? r c with
  | some v => pure v
  | none => throw .outOfBounds

end Operand

/-! ## Panels -/

/-- `length` elements of C from `start` on. -/
structure Panel where
  start : Nat
  length : Nat
  deriving DecidableEq, Repr

namespace Panel

/-- Consecutive pieces of `width` elements, the last one possibly shorter, and no more of them than
the `n` columns of C fill at `nr` columns each. The width is a 64-bit product. -/
def split? (size ldc nr n : Nat) : Option (List Panel) :=
  let width := Size.wrap (ldc * nr)
  if width = 0 then none else
    let count := min (Size.ceilDiv n nr) (Size.ceilDiv size width)
    some ((List.range count).map fun p => ⟨p * width, min width (size - p * width)⟩)

/-- Position in C of the panel's element `i`. -/
def cell {γ : Type} (p : Panel) (i : Nat) : Run γ Nat :=
  if i < p.length then pure (p.start + i) else throw .outOfBounds

/-- Position in C of `count` elements of the panel from `i` on. -/
def slice {γ : Type} (p : Panel) (i count : Nat) : Run γ Nat :=
  if i + count ≤ p.length then pure (p.start + i) else throw .outOfBounds

end Panel

/-- Every panel of C, in the order in which a team comes to them. -/
def Run.overPanels {γ : Type} (team : Work.Team) (ldc nr n : Nat)
    (work : Nat → Panel → Run γ Unit) : Run γ Unit := do
  match Panel.split? (← get).size ldc nr n with
  | none => throw .emptyPanels
  | some panels =>
    (team.items panels.length).forM fun i =>
      match panels[i]? with
      | some p => work i p
      | none => pure ()

end JitGemm
