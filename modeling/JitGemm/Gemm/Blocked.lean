import JitGemm.Gemm.Packing
import JitGemm.Gemm.Reference
import JitGemm.Tile.Value

/-!
# Products by tiles

A is packed once; every panel of four columns packs its part of B and runs a tile kernel on each
tile of A. A f32 tile that lies wholly inside C is computed in place; one at the edge goes through a
scratch tile, which the panel keeps from tile to tile. The i32 kernel always goes through a scratch
tile, as its sums are not yet results.
-/

namespace JitGemm.Blocked

/-- Where a tile lies: its panel, first row and column, and how many rows and columns are in C. -/
structure Place where
  panel : Panel
  ldc : Nat
  row : Nat
  column : Nat
  numRows : Nat
  numCols : Nat
  deriving DecidableEq, Repr

def Place.of (s : GemmShape) (rows : Nat) (panel : Panel) (jp t : Nat) : Place where
  panel := panel
  ldc := s.ldc
  row := t * rows
  column := jp * tileCols
  numRows := min rows (s.m - t * rows)
  numCols := min tileCols (s.n - jp * tileCols)

namespace Place

/-- Position in the panel of row `i` and column `j` of the tile. -/
def offset (p : Place) (i j : Nat) : Nat := p.row + i + j * p.ldc

/-- Columns of the tile in C, each with the position of its first row. -/
def forColumns {γ σ : Type} (p : Place) (init : σ) (f : σ → Nat → Nat → Run γ σ) : Run γ σ :=
  (List.range p.numCols).foldlM (fun acc j => do
    f acc j (← p.panel.slice (p.offset 0 j) p.numRows)) init

end Place

/-! ## f32 -/

section

variable {α : Type} (ar : Arith α)

/-- A call of a tile kernel, but for its tile. -/
structure FloatCall (α : Type) where
  fused : Bool
  rows : Nat
  steps : Nat
  alpha : α
  beta : α
  betaZero : Bool

/-- Value of one element of a tile from its old value. -/
def FloatCall.value (c : FloatCall α) (a b : Array α) (bias : Option (Array α)) (i j : Nat)
    (old : α) : α :=
  Tile.floatFinish ar c.fused c.betaZero c.alpha c.beta (bias.map fun xs => xs.getD i ar.zero) old
    (Tile.floatSum ar c.fused c.rows c.steps a b i j)

/-- The bias of a tile's rows, zero past the edge. -/
def tileBias (p : Place) (rows : Nat) (bias : Option (Array α)) : Run α (Option (Array α)) :=
  match bias with
  | none => pure none
  | some xs => do
    let part ← (List.range rows).mapM fun i =>
      if i < p.numRows then Run.fetch xs (p.row + i) else pure ar.zero
    return some part.toArray

/-- A whole tile, in place. -/
def inPlace (c : FloatCall α) (p : Place) (a b : Array α) (bias : Option (Array α)) :
    Run α Unit :=
  (List.range tileCols).forM fun j => (List.range c.rows).forM fun i => do
    let position ← p.panel.cell (p.offset i j)
    let old ← Run.read position
    Run.write position (c.value ar a b bias i j old)

/-- Copies the part of a tile that is in C to the scratch tile. -/
def loadEdge (p : Place) (rows : Nat) (scratch : Array α) : Run α (Array α) :=
  p.forColumns scratch fun scratch j start =>
    (List.range p.numRows).foldlM (fun scratch i => do
      return scratch.setIfInBounds (j * rows + i) (← Run.read (start + i))) scratch

/-- Copies the part of the scratch tile that is in C back. -/
def storeEdge (p : Place) (rows : Nat) (scratch : Array α) : Run α Unit :=
  p.forColumns () fun _ j start =>
    (List.range p.numRows).forM fun i =>
      Run.write (start + i) (scratch.getD (j * rows + i) ar.zero)

/-- The scratch tile after the kernel ran on it. -/
def onScratch (c : FloatCall α) (a b : Array α) (bias : Option (Array α)) (scratch : Array α) :
    Array α :=
  scratch.mapIdx fun position old =>
    c.value ar a b bias (position % c.rows) (position / c.rows) old

/-- One tile; the answer is the scratch tile that it leaves. -/
def floatTile (c : FloatCall α) (p : Place) (bias : Option (Array α)) (a b scratch : Array α) :
    Run α (Array α) := do
  let bias ← tileBias ar p c.rows bias
  if p.numRows = c.rows ∧ p.numCols = tileCols then
    inPlace ar c p a b bias
    return scratch
  else
    let scratch ← if c.betaZero then pure scratch else loadEdge p c.rows scratch
    let scratch := onScratch ar c a b bias scratch
    storeEdge ar p c.rows scratch
    return scratch

/-- Real products by tiles of `rows` rows on operands already widened. -/
def float {A B : Type} (team : Work.Team) (fused : Bool) (rows : Nat) (q : Request α A B)
    (a b : Operand α) : Run α Unit := do
  let s := q.shape
  let c : FloatCall α :=
    { fused, rows, steps := s.k, alpha := q.alpha, beta := q.beta, betaZero := ar.isZero q.beta }
  let packedA ← Packing.packA ar.zero a rows
  Run.overPanels team s.ldc tileCols s.n fun jp panel => do
    let columns := min tileCols (s.n - jp * tileCols)
    let packedB ← Packing.packB ar.zero b (jp * tileCols) columns tileCols
    let scratch ← Run.zeros ar.zero (rows * tileCols)
    let tiles ← Packing.cutTiles packedA s.k rows
    let _ ← tiles.zipIdx.foldlM (fun scratch (tile, t) =>
      floatTile ar c (Place.of s rows panel jp t) q.bias tile packedB scratch) scratch

end

/-! ## i32 -/

/-- What a shift of B adds to each row of the result. -/
def compensation {γ : Type} (a : Operand Int32) (shift : Int32) : Run γ (Array Int32) := do
  let rows ← (List.range a.matrix.rows).mapM fun i => do
    let sum ← (List.range a.matrix.cols).foldlM (fun sum p => do
      return sum + (← a.entry i p)) (0 : Int32)
    return shift * sum
  return rows.toArray

/-- One tile: its sums, less the compensation, become results one by one. -/
def intTile {α : Type} (ar : Arith α) (alpha beta : α) (offset : Option Offset) (p : Place)
    (rows steps : Nat) (a b comp : Array Int32) : Run Int32 Unit :=
  (List.range p.numCols).forM fun j => (List.range p.numRows).forM fun i => do
    let sum := Tile.intSum rows steps a b i j - comp.getD (p.row + i) 0
    let position ← p.panel.cell (p.offset i j)
    Reference.writeQuantized ar alpha beta offset position (p.row + i) (p.column + j) sum

/-- Quantized products by tiles, on operands with their zero points taken off and `shift` added to
B. -/
def int {α A B : Type} (ar : Arith α) (team : Work.Team) (rows : Nat) (shift : Int32)
    (q : Request α A B) (a b : Operand Int32) : Run Int32 Unit := do
  let s := q.shape
  let packedA ← Packing.packA 0 a rows
  let comp ← compensation a shift
  let shifted : Operand Int32 := ⟨b.matrix, fun i => (b.element? i).map (· + shift)⟩
  Run.overPanels team s.ldc tileCols s.n fun jp panel => do
    let columns := min tileCols (s.n - jp * tileCols)
    let packedB ← Packing.packB 0 shifted (jp * tileCols) columns tileCols
    let _ ← Run.zeros (0 : Int32) (rows * tileCols)
    let tiles ← Packing.cutTiles packedA s.k rows
    tiles.zipIdx.forM fun (tile, t) =>
      intTile ar q.alpha q.beta q.offset (Place.of s rows panel jp t) rows s.k tile packedB comp

end JitGemm.Blocked
