import JitGemm.Gemm.Blocked
import JitGemm.Proofs.Gemm.PackingResult
import JitGemm.Proofs.Gemm.ReferenceResult

/-!
# The order of tiles

A panel is done tile by tile from the top, a tile column by column. Together the tiles visit every
element of the block once.
-/

namespace JitGemm.Blocked

variable {γ : Type}

-- ---------------------------------------------------------------------------
-- Elements visited so far
-- ---------------------------------------------------------------------------

/-- All panels before column `col`, and the panel at `col` down to `row`. -/
def above (col row : Nat) (i j : Nat) : Bool :=
  j < col ∨ j < col + tileCols ∧ i < row

/-- In the tile at `row` and `col` also `jj` columns, and `ii` rows of the next one. -/
def within (col row rows jj ii : Nat) (i j : Nat) : Bool :=
  above col row i j ∨ col ≤ j ∧ j < col + jj ∧ i < row + rows ∨
    j = col + jj ∧ row ≤ i ∧ i < row + ii

section

variable {s : GemmShape} {f : Nat → Nat → γ → γ} {c : Array γ} {rows jp t : Nat}

theorem within_next (col row rows jj ii i j : Nat) :
    within col row rows jj (ii + 1) i j =
      (within col row rows jj ii i j || decide (i = row + ii ∧ j = col + jj)) := by
  rw [within, within, ← Bool.decide_or, decide_eq_decide]
  constructor
  · rintro (h | h | ⟨hj, hlo, hhi⟩)
    · exact .inl (.inl h)
    · exact .inl (.inr (.inl h))
    · by_cases hi : i = row + ii
      · exact .inr ⟨hi, hj⟩
      · exact .inl (.inr (.inr ⟨hj, hlo, by omega⟩))
  · rintro ((h | h | ⟨hj, hlo, hhi⟩) | ⟨hi, hj⟩)
    · exact .inl h
    · exact .inr (.inl h)
    · exact .inr (.inr ⟨hj, hlo, by omega⟩)
    · exact .inr (.inr ⟨hj, by omega, by omega⟩)

theorem within_new (col row rows jj ii : Nat) :
    within col row rows jj ii (row + ii) (col + jj) = false := by
  simp only [within, above, decide_eq_true_eq, decide_eq_false_iff_not]
  omega

theorem overwrite_within_zero :
    s.overwrite f (within (jp * tileCols) (t * rows) rows 0 0) c =
      s.overwrite f (above (jp * tileCols) (t * rows)) c := by
  refine GemmShape.overwrite_congr fun i _ j _ => ?_
  rw [within, above, decide_eq_decide, decide_eq_true_eq]
  omega

theorem overwrite_column_done {jj : Nat} (hjj : jj < tileCols) :
    s.overwrite f (within (jp * tileCols) (t * rows) rows jj (min rows (s.m - t * rows))) c =
      s.overwrite f (within (jp * tileCols) (t * rows) rows (jj + 1) 0) c := by
  refine GemmShape.overwrite_congr fun i hi j _ => ?_
  simp only [within, above, decide_eq_true_eq, decide_eq_decide]
  omega

/-- A tile is done after its columns that are in C. -/
theorem overwrite_tile_done :
    s.overwrite f (within (jp * tileCols) (t * rows) rows
        (min tileCols (s.n - jp * tileCols)) 0) c =
      s.overwrite f (above (jp * tileCols) ((t + 1) * rows)) c := by
  refine GemmShape.overwrite_congr fun i hi j hj => ?_
  rw [Nat.succ_mul]
  simp only [within, above, decide_eq_true_eq, decide_eq_decide]
  omega

theorem overwrite_panel_done (hrows : 0 < rows) :
    s.overwrite f (above (jp * tileCols) (Size.ceilDiv s.m rows * rows)) c =
      s.overwrite f (fun _ j => j < (jp + 1) * tileCols) c := by
  refine GemmShape.overwrite_congr fun i hi j _ => ?_
  have hlast : s.m ≤ Size.ceilDiv s.m rows * rows := Size.le_ceilDiv_mul hrows
  rw [Nat.succ_mul]
  simp only [above, decide_eq_decide]
  omega

theorem overwrite_above_zero (jp rows : Nat) :
    s.overwrite f (above (jp * tileCols) (0 * rows)) c =
      s.overwrite f (fun _ j => j < jp * tileCols) c := by
  refine GemmShape.overwrite_congr fun i _ j _ => ?_
  simp only [above, decide_eq_decide]
  omega

-- ---------------------------------------------------------------------------
-- Runs over tiles
-- ---------------------------------------------------------------------------

/-- Work on a tile that goes from element to element, column by column. -/
theorem run_tile {numRows numCols : Nat} {element : Nat → Nat → Run γ Unit}
    (hrows : min rows (s.m - t * rows) = numRows)
    (hcols : min tileCols (s.n - jp * tileCols) = numCols)
    (h : ∀ jj < numCols, ∀ ii < numRows,
      (element jj ii).run
          (s.overwrite f (within (jp * tileCols) (t * rows) rows jj ii) c) =
        .ok () (s.overwrite f (within (jp * tileCols) (t * rows) rows jj (ii + 1)) c)) :
    ((List.range numCols).forM fun jj => (List.range numRows).forM fun ii => element jj ii).run
        (s.overwrite f (above (jp * tileCols) (t * rows)) c) =
      .ok () (s.overwrite f (above (jp * tileCols) ((t + 1) * rows)) c) := by
  rw [← overwrite_within_zero, ← overwrite_tile_done, hcols]
  refine Run.run_forM_range
    (S := fun jj => s.overwrite f (within (jp * tileCols) (t * rows) rows jj 0) c)
    fun jj hjj => ?_
  rw [← overwrite_column_done (by omega), hrows]
  exact Run.run_forM_range
    (S := fun ii => s.overwrite f (within (jp * tileCols) (t * rows) rows jj ii) c)
    fun ii hii => h jj hjj ii hii

end

-- ---------------------------------------------------------------------------
-- Places
-- ---------------------------------------------------------------------------

section

variable {s : GemmShape} {size rows jp t jj ii : Nat}

theorem place_inside (hjj : jj < min tileCols (s.n - jp * tileCols))
    (hii : ii < min rows (s.m - t * rows)) :
    t * rows + ii < s.m ∧ jp * tileCols + jj < s.n ∧ jj < tileCols ∧ ii < rows := by
  omega

theorem Place.cell_eq (h : s.Holds size) (hw : s.PanelsFit tileCols)
    (hjj : jj < min tileCols (s.n - jp * tileCols)) (hii : ii < min rows (s.m - t * rows)) :
    let p := Place.of s rows (Panel.nth s size tileCols jp) jp t
    (p.panel.cell (p.offset ii jj) : Run γ Nat) =
      pure (t * rows + ii + (jp * tileCols + jj) * s.ldc) := by
  obtain ⟨hi, hj, hjj', _⟩ := place_inside hjj hii
  exact Panel.cell_eq h hw hi hjj' hj

theorem Place.slice_eq (h : s.Holds size) (hw : s.PanelsFit tileCols)
    (hjj : jj < min tileCols (s.n - jp * tileCols)) (ht : t * rows < s.m) (hrows : 0 < rows) :
    let p := Place.of s rows (Panel.nth s size tileCols jp) jp t
    (p.panel.slice (p.offset 0 jj) p.numRows : Run γ Nat) =
      pure (t * rows + (jp * tileCols + jj) * s.ldc) :=
  Panel.slice_eq h hw (by simp only [Place.of]; omega) (by simp only [Place.of]; omega) (by omega)
    (by omega)

end

end JitGemm.Blocked
