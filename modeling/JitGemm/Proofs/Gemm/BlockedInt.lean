import Mathlib.Data.List.Basic
import JitGemm.Proofs.Gemm.TileOrder

/-!
# Quantized products by tiles

The tiled kernel ends in the same C as the reference kernel, for tiles of any height and any shift
of B: what the shift adds to a row is taken off again, in wrapping arithmetic.
-/

namespace JitGemm.Blocked

def rowSum (a : Operand Int32) (k i : Nat) : Int32 :=
  (List.range k).foldl (fun sum p => sum + a.value 0 i p) 0

def shifted (b : Operand Int32) (shift : Int32) : Operand Int32 :=
  ⟨b.matrix, fun i => (b.element? i).map (· + shift)⟩

theorem shifted_defined {b : Operand Int32} (h : b.Defined) (shift : Int32) :
    (shifted b shift).Defined := by
  intro r hr c hc
  obtain ⟨v, hv⟩ := Option.isSome_iff_exists.mp (h r hr c hc)
  rw [Operand.lookup?] at hv
  simp [Operand.lookup?, shifted, hv]

theorem value_shifted {b : Operand Int32} (h : b.Defined) (shift : Int32) {r c : Nat}
    (hr : r < b.matrix.rows) (hc : c < b.matrix.cols) :
    (shifted b shift).value 0 r c = b.value 0 r c + shift := by
  obtain ⟨v, hv⟩ := Option.isSome_iff_exists.mp (h r hr c hc)
  rw [Operand.lookup?] at hv
  simp [Operand.value, Operand.lookup?, shifted, hv]

/-- The compensation is exactly what the shift brought in. -/
theorem sum_shifted (x y : Nat → Int32) (shift : Int32) (k : Nat) :
    (List.range k).foldl (fun acc p => acc + x p * (y p + shift)) 0 -
        shift * (List.range k).foldl (fun acc p => acc + x p) 0 =
      (List.range k).foldl (fun acc p => acc + x p * y p) 0 := by
  induction k with
  | zero => simp
  | succ k ih =>
    rw [List.range_succ, List.foldl_append, List.foldl_append, List.foldl_append, ← ih]
    simp only [List.foldl_cons, List.foldl_nil]
    grind

section

variable {s : GemmShape} {a b : Operand Int32} {size rows jp t jj ii : Nat}

theorem ready_shifted (h : s.Ready a b size) (shift : Int32) :
    s.Ready a (shifted b shift) size where
  holds := h.holds
  rowsA := h.rowsA
  colsA := h.colsA
  rowsB := h.rowsB
  colsB := h.colsB
  definedA := h.definedA
  definedB := shifted_defined h.definedB shift

theorem compensation_eq {γ : Type} (h : s.Ready a b size) (shift : Int32) :
    (compensation a shift : Run γ (Array Int32)) =
      pure ((List.range s.m).map fun i => shift * rowSum a s.k i).toArray := by
  have hrow : ∀ i ∈ List.range s.m, (List.range s.k).foldlM (fun sum p => do
      return sum + (← a.entry i p)) 0 = (pure (rowSum a s.k i) : Run γ Int32) := by
    intro i hi
    refine Run.foldlM_eq_pure (fun acc p hp => ?_) _
    rw [h.entryA 0 (List.mem_range.mp hi) (List.mem_range.mp hp), pure_bind]
  rw [compensation, h.rowsA, h.colsA, Run.mapM_eq_pure fun i hi => by rw [hrow i hi, pure_bind],
    pure_bind]

/-- A sum of a tile, less the compensation, is the sum of its element. -/
theorem intSum_sub_compensation (h : s.Ready a b size) (shift : Int32)
    (hjj : jj < min tileCols (s.n - jp * tileCols)) (hii : ii < min rows (s.m - t * rows)) :
    Tile.intSum rows s.k (Packing.table s.k rows (Packing.rowEntry 0 a rows t)).toArray
        (Packing.table s.k tileCols (Packing.columnEntry 0 (shifted b shift) (jp * tileCols)
          (min tileCols (s.n - jp * tileCols)))).toArray ii jj -
      ((List.range s.m).map fun i => shift * rowSum a s.k i).toArray.getD (t * rows + ii) 0 =
      Reference.intDotValue a b s.k (t * rows + ii) (jp * tileCols + jj) := by
  obtain ⟨hi, hj, hjj', hii'⟩ := place_inside hjj hii
  have hcomp : ((List.range s.m).map fun i => shift * rowSum a s.k i).toArray.getD
      (t * rows + ii) 0 = shift * rowSum a s.k (t * rows + ii) := by
    simp [Array.getD_eq_getD_getElem?, hi]
  have hsum : Tile.intSum rows s.k (Packing.table s.k rows (Packing.rowEntry 0 a rows t)).toArray
      (Packing.table s.k tileCols (Packing.columnEntry 0 (shifted b shift) (jp * tileCols)
        (min tileCols (s.n - jp * tileCols)))).toArray ii jj =
      (List.range s.k).foldl (fun acc p => acc + a.value 0 (t * rows + ii) p *
        (b.value 0 p (jp * tileCols + jj) + shift)) 0 := by
    refine List.foldl_ext _ _ _ fun acc p hp => ?_
    have hp := List.mem_range.mp hp
    rw [Packing.getD_table 0 hp hii', Packing.getD_table 0 hp hjj', Packing.rowEntry,
      Packing.columnEntry, if_pos (h.rowsA ▸ hi), if_pos hjj,
      value_shifted h.definedB shift (h.rowsB ▸ hp) (h.colsB ▸ hj)]
  rw [hcomp, hsum]
  exact sum_shifted _ _ shift s.k

end

theorem run_int {α A B : Type} (ar : Arith α) {q : Request α A B} {a b : Operand Int32}
    {c : Array Int32} {rows : Nat} (h : q.shape.Ready a b c.size)
    (hoffset : Offset.Reaches q.offset q.shape.m q.shape.n) (hk : 0 < q.shape.k)
    (hw : q.shape.PanelsFit tileCols) (hrows : 0 < rows) (hpack : q.shape.Packable rows)
    (shift : Int32) (team : Work.Team) :
    (int ar team rows shift q a b).run c =
      .ok () (q.shape.overwrite
        (Reference.intValue ar a b q.shape.k q.alpha q.beta q.offset) (fun _ _ => true) c) := by
  simp only [int]
  rw [h.packA_eq hk hrows hpack.a, pure_bind, compensation_eq h, pure_bind]
  refine h.holds.run_overPanels (by decide) hw team fun jp hjp => ?_
  rw [← shifted, (ready_shifted h shift).packB_eq hpack.b 0 hjp, pure_bind,
    Run.zeros_eq hpack.tile, pure_bind, h.cutTiles_eq hk hrows hpack.a, pure_bind,
    ← overwrite_above_zero jp rows, ← overwrite_panel_done hrows]
  have hlength : (Packing.tiles 0 a rows).zipIdx.length = Size.ceilDiv q.shape.m rows := by
    rw [List.length_zipIdx, Packing.length_tiles, h.rowsA]
  rw [← hlength]
  refine Run.run_forM (S := fun t => q.shape.overwrite _ (above (jp * tileCols) (t * rows)) c)
    fun t ht => ?_
  simp only [List.getElem_zipIdx, Packing.getElem_tiles, Nat.zero_add, intTile]
  refine run_tile rfl rfl fun jj hjj ii hii => ?_
  obtain ⟨hi, hj, _, _⟩ := place_inside hjj hii
  rw [Place.cell_eq h.holds hw hjj hii, pure_bind]
  refine Reference.run_writeQuantized ar h.holds hoffset hi hj (fun old => ?_)
    (fun i _ j _ => within_next _ _ _ _ _ i j) (within_new _ _ _ _ _)
  rw [Reference.intValue, ← intSum_sub_compensation h shift hjj hii, h.colsA]
  rfl

end JitGemm.Blocked
