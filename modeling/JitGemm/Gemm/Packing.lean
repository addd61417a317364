import JitGemm.Gemm.Run

/-!
# Packed operands

A tile kernel reads A and B as contiguous panels: per step, `mr` values of A and `nr` values of B,
with zeros past the last row and column. Each operand is packed into a buffer that starts out as
zeros, and to which the entries that the operand has are copied. All lengths are 64-bit products.
-/

namespace JitGemm.Packing

variable {V γ : Type}

/-- Copies entries to a piece of the buffer, one after the other from `start` on. -/
def copyLanes (piece : Panel) (start lanes : Nat) (entry : Nat → Run V V) : Run V Unit :=
  (List.range lanes).forM fun i => do
    let v ← entry i
    Run.write (← piece.cell (start + i)) v

/-- Copies the entries of every step, for which the piece has `width` places each. -/
def copySteps (piece : Panel) (steps width lanes : Nat) (entry : Nat → Nat → Run V V) :
    Run V Unit :=
  -- No position reaches the modulus: an earlier one lies past the end of the piece.
  (List.range steps).forM fun p => copyLanes piece (p * width) lanes (entry p)

/-- Copies A into a buffer of zeros, which is cut into pieces for the tiles. -/
def fillA (x : Operand V) (mr : Nat) : Run V Unit := do
  let size := (← get).size
  let width := Size.wrap (x.matrix.cols * mr)
  if width = 0 then throw .emptyPanels else
    (List.range (Size.ceilDiv size width)).forM fun t =>
      copySteps ⟨t * width, min width (size - t * width)⟩ x.matrix.cols mr
        (min mr (x.matrix.rows - t * mr)) fun p i => x.entry (t * mr + i) p

/-- Copies columns `j0` to `j0 + nb` of B into a buffer of zeros. -/
def fillB (x : Operand V) (j0 nb nr : Nat) : Run V Unit := do
  copySteps ⟨0, (← get).size⟩ x.matrix.rows nr nb fun p j => x.entry p (j0 + j)

/-- All tiles of A, top to bottom: of each its steps one after the other, `mr` rows each. -/
def packA (zero : V) (x : Operand V) (mr : Nat) : Run γ (Array V) := do
  let buffer ← Run.zeros zero (Size.ceilDiv x.matrix.rows mr * x.matrix.cols * mr)
  Run.onBuffer buffer (fillA x mr)

/-- Columns `j0` to `j0 + nb` of B, step by step, `nr` values each. -/
def packB (zero : V) (x : Operand V) (j0 nb nr : Nat) : Run γ (Array V) := do
  let buffer ← Run.zeros zero (x.matrix.rows * nr)
  Run.onBuffer buffer (fillB x j0 nb nr)

/-- The tiles of a packed A, as pieces of `steps` times `mr` values, the last one possibly
shorter. -/
def cutTiles (packed : Array V) (steps mr : Nat) : Run γ (List (Array V)) :=
  let width := Size.wrap (steps * mr)
  if width = 0 then throw .emptyPanels else
    pure ((List.range (Size.ceilDiv packed.size width)).map fun t =>
      packed.extract (t * width) (t * width + width))

end JitGemm.Packing
