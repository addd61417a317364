import Mathlib.Data.List.Basic
import JitGemm.Proofs.Gemm.TileOrder

/-!
# Real products by tiles

A tile in the middle of C and a tile at its edge give every element the same value: what the scratch
tile still holds from the tile before it never reaches C.
-/

namespace JitGemm.Blocked

variable {α : Type} (ar : Arith α)

-- ---------------------------------------------------------------------------
-- Values
-- ---------------------------------------------------------------------------

def sumValue (fused : Bool) (a b : Operand α) (k i j : Nat) : α :=
  (List.range k).foldl (fun acc p =>
    Tile.mulAdd ar fused (a.value ar.zero i p) (b.value ar.zero p j) acc) ar.zero

/-- An element of a real product from its old value, as the tile kernel has it. -/
def floatValue (fused : Bool) (a b : Operand α) (k : Nat) (alpha beta : α)
    (bias : Option (Array α)) (i j : Nat) (old : α) : α :=
  Tile.floatFinish ar fused (ar.isZero beta) alpha beta (bias.map fun xs => xs.getD i ar.zero) old
    (sumValue ar fused a b k i j)

def biasPart (p : Place) (rows : Nat) (xs : Array α) : Array α :=
  ((List.range rows).map fun ii =>
    if ii < p.numRows then xs.getD (p.row + ii) ar.zero else ar.zero).toArray

theorem getD_biasPart {p : Place} {rows ii : Nat} (hii : ii < rows) (hnum : ii < p.numRows)
    (xs : Array α) : (biasPart ar p rows xs).getD ii ar.zero = xs.getD (p.row + ii) ar.zero := by
  simp [biasPart, Array.getD_eq_getD_getElem?, hii, hnum]

theorem tileBias_eq {p : Place} {bias : Option (Array α)}
    (h : ∀ xs, bias = some xs → p.row + p.numRows ≤ xs.size) (rows : Nat) :
    tileBias ar p rows bias = pure (bias.map (biasPart ar p rows)) := by
  cases bias with
  | none => rfl
  | some xs =>
    have hlen := h xs rfl
    have hrow : ∀ ii ∈ List.range rows,
        (if ii < p.numRows then Run.fetch xs (p.row + ii) else pure ar.zero : Run α α) =
          pure (if ii < p.numRows then xs.getD (p.row + ii) ar.zero else ar.zero) := by
      intro ii _
      split
      · have hlt : p.row + ii < xs.size := by omega
        rw [Run.fetch_of_lt hlt]
        simp [hlt]
      · rfl
    rw [tileBias, Run.mapM_eq_pure hrow, pure_bind]
    rfl

section

variable {s : GemmShape} {a b : Operand α} {size rows jp t jj ii : Nat}

/-- What the kernel makes of an element of a packed tile. -/
theorem call_value {c : FloatCall α} (bias : Option (Array α)) (panel : Panel)
    (h : s.Ready a b size) (hrows : c.rows = rows) (hsteps : c.steps = s.k)
    (hzero : c.betaZero = ar.isZero c.beta)
    (hjj : jj < min tileCols (s.n - jp * tileCols)) (hii : ii < min rows (s.m - t * rows))
    (old : α) :
    c.value ar (Packing.table s.k rows (Packing.rowEntry ar.zero a rows t)).toArray
        (Packing.table s.k tileCols (Packing.columnEntry ar.zero b (jp * tileCols)
          (min tileCols (s.n - jp * tileCols)))).toArray
        (bias.map (biasPart ar (Place.of s rows panel jp t) rows)) ii jj old =
      floatValue ar c.fused a b s.k c.alpha c.beta bias (t * rows + ii) (jp * tileCols + jj)
        old := by
  obtain ⟨hi, hj, hjj', hii'⟩ := place_inside hjj hii
  have hsum : Tile.floatSum ar c.fused rows s.k
      (Packing.table s.k rows (Packing.rowEntry ar.zero a rows t)).toArray
      (Packing.table s.k tileCols (Packing.columnEntry ar.zero b (jp * tileCols)
        (min tileCols (s.n - jp * tileCols)))).toArray ii jj =
      sumValue ar c.fused a b s.k (t * rows + ii) (jp * tileCols + jj) := by
    refine List.foldl_ext _ _ _ fun acc p hp => ?_
    have hp := List.mem_range.mp hp
    rw [Packing.getD_table ar.zero hp hii', Packing.getD_table ar.zero hp hjj', Packing.rowEntry,
      Packing.columnEntry, if_pos (h.rowsA ▸ hi), if_pos hjj]
  have hbias : ((bias.map (biasPart ar (Place.of s rows panel jp t) rows)).map fun xs =>
      xs.getD ii ar.zero) =
      bias.map fun xs => xs.getD (t * rows + ii) ar.zero := by
    cases bias with
    | none => rfl
    | some xs => exact congrArg some (getD_biasPart ar hii' hii xs)
  rw [FloatCall.value, floatValue, hrows, hsteps, hzero, hsum, hbias]

end

-- ---------------------------------------------------------------------------
-- The scratch tile
-- ---------------------------------------------------------------------------

section

variable {s : GemmShape} {c : Array α} {rows jp t : Nat}

/-- A scratch tile that holds the old values of the elements `taken` of its tile. -/
structure Loaded (s : GemmShape) (c : Array α) (rows jp t : Nat) (taken : Nat → Nat → Prop)
    (scratch : Array α) : Prop where
  size : scratch.size = rows * tileCols
  entry : ∀ jj < tileCols, ∀ ii < rows, taken jj ii →
    scratch[jj * rows + ii]? = s.element? c (t * rows + ii) (jp * tileCols + jj)

theorem scratch_lt {jj ii : Nat} (hjj : jj < tileCols) (hii : ii < rows) :
    jj * rows + ii < rows * tileCols := by
  rw [Nat.mul_comm jj, Nat.mul_comm rows tileCols]
  exact Nat.mul_add_lt_mul_of_lt_of_lt hjj hii

theorem scratch_mod_div (jj : Nat) {ii : Nat} (hii : ii < rows) :
    (jj * rows + ii) % rows = ii ∧ (jj * rows + ii) / rows = jj := by
  rw [Nat.add_comm]
  exact GemmShape.position_mod_div hii jj

theorem Loaded.mono {taken taken' : Nat → Nat → Prop} {scratch : Array α}
    (h : Loaded s c rows jp t taken scratch)
    (hsub : ∀ jj < tileCols, ∀ ii < rows, taken' jj ii → taken jj ii) :
    Loaded s c rows jp t taken' scratch where
  size := h.size
  entry := fun jj hjj ii hii ht => h.entry jj hjj ii hii (hsub jj hjj ii hii ht)

theorem Loaded.take {taken taken' : Nat → Nat → Prop} {scratch : Array α} {jj ii : Nat}
    (h : Loaded s c rows jp t taken scratch) (hjj : jj < tileCols) (hii : ii < rows)
    (hnew : ∀ jj' ii', taken' jj' ii' → taken jj' ii' ∨ jj' = jj ∧ ii' = ii) {v : α}
    (hv : s.element? c (t * rows + ii) (jp * tileCols + jj) = some v) :
    Loaded s c rows jp t taken' (scratch.setIfInBounds (jj * rows + ii) v) where
  size := by simpa using h.size
  entry := by
    intro jj' hjj' ii' hii' ht
    by_cases hsame : jj' = jj ∧ ii' = ii
    · obtain ⟨rfl, rfl⟩ := hsame
      rw [Array.getElem?_setIfInBounds_self_of_lt (h.size ▸ scratch_lt hjj hii), hv]
    · have hne : jj * rows + ii ≠ jj' * rows + ii' := by
        intro heq
        obtain ⟨hmod, hdiv⟩ := scratch_mod_div jj hii
        obtain ⟨hmod', hdiv'⟩ := scratch_mod_div jj' hii'
        rw [heq] at hmod hdiv
        exact hsame ⟨hdiv'.symm.trans hdiv, hmod'.symm.trans hmod⟩
      rw [Array.getElem?_setIfInBounds_ne hne]
      exact h.entry jj' hjj' ii' hii' ((hnew jj' ii' ht).resolve_right hsame)

theorem run_forColumns {σ : Type} {P : Nat → σ → Prop} {S : Nat → Array α} {init : σ}
    {f : σ → Nat → Nat → Run α σ} {size : Nat} (h : s.Holds size) (hw : s.PanelsFit tileCols)
    (ht : t * rows < s.m) (hrows : 0 < rows) (hinit : P 0 init)
    (hround : ∀ jj < min tileCols (s.n - jp * tileCols), ∀ acc, P jj acc →
      ∃ acc', (f acc jj (t * rows + (jp * tileCols + jj) * s.ldc)).run (S jj) =
        .ok acc' (S (jj + 1)) ∧ P (jj + 1) acc') :
    ∃ acc', ((Place.of s rows (Panel.nth s size tileCols jp) jp t).forColumns init f).run
        (S 0) = .ok acc' (S (min tileCols (s.n - jp * tileCols))) ∧
      P (min tileCols (s.n - jp * tileCols)) acc' := by
  have hrun := Run.run_foldlM (P := P) (S := S)
    (l := List.range (Place.of s rows (Panel.nth s size tileCols jp) jp t).numCols)
    (f := fun acc jj => do
      f acc jj (← (Place.of s rows (Panel.nth s size tileCols jp) jp t).panel.slice
        ((Place.of s rows (Panel.nth s size tileCols jp) jp t).offset 0 jj)
        (Place.of s rows (Panel.nth s size tileCols jp) jp t).numRows)) hinit
    fun jj hjj acc hacc => by
      have hjj : jj < min tileCols (s.n - jp * tileCols) := by simpa [Place.of] using hjj
      rw [List.getElem_range, Place.slice_eq h hw hjj ht hrows, pure_bind]
      exact hround jj hjj acc hacc
  rw [List.length_range] at hrun
  exact hrun

/-- Loading reads the old values of the tile's elements and leaves C alone. -/
theorem run_loadEdge (f : Nat → Nat → α → α) (jp : Nat) {scratch : Array α} (h : s.Holds c.size)
    (hw : s.PanelsFit tileCols) (ht : t * rows < s.m) (hrows : 0 < rows)
    (hsize : scratch.size = rows * tileCols) :
    ∃ loaded, (loadEdge (Place.of s rows (Panel.nth s c.size tileCols jp) jp t) rows
        scratch).run (s.overwrite f (above (jp * tileCols) (t * rows)) c) =
        .ok loaded (s.overwrite f (above (jp * tileCols) (t * rows)) c) ∧
      Loaded s c rows jp t (fun jj ii => jj < min tileCols (s.n - jp * tileCols) ∧
        ii < min rows (s.m - t * rows)) loaded := by
  refine run_forColumns (S := fun _ => s.overwrite f (above (jp * tileCols) (t * rows)) c)
    (P := fun n => Loaded s c rows jp t fun jj ii => jj < n ∧ ii < min rows (s.m - t * rows))
    h hw ht hrows ⟨hsize, by omega⟩ fun jj hjj scratch hscratch => ?_
  obtain ⟨loaded, hrun, hloaded⟩ := Run.run_foldlM
    (l := List.range (Place.of s rows (Panel.nth s c.size tileCols jp) jp t).numRows)
    (f := fun scratch i => do
      let old ← Run.read (t * rows + (jp * tileCols + jj) * s.ldc + i)
      return scratch.setIfInBounds (jj * rows + i) old)
    (S := fun _ => s.overwrite f (above (jp * tileCols) (t * rows)) c)
    (P := fun n => Loaded s c rows jp t fun jj' ii => jj' < jj ∧ ii < min rows (s.m - t * rows) ∨
      jj' = jj ∧ ii < n) (z := scratch) (hscratch.mono (by omega)) (by
      intro ii hii scratch hscratch
      have hii : ii < min rows (s.m - t * rows) := by simpa [Place.of] using hii
      obtain ⟨hi, hj, hjj', hii'⟩ := place_inside hjj hii
      obtain ⟨old, hc, hread⟩ := GemmShape.old_of_unvisited (f := f) h hi hj
        (by simp [above] : above (jp * tileCols) (t * rows) _ _ = false)
      have hposition : t * rows + (jp * tileCols + jj) * s.ldc + ii =
        t * rows + ii + (jp * tileCols + jj) * s.ldc := by omega
      refine ⟨_, ?_, hscratch.take hjj' hii' (by omega) hc⟩
      rw [List.getElem_range, hposition, Run.run_bind_ok (Run.run_read hread)]
      rfl)
  rw [List.length_range] at hloaded
  refine ⟨loaded, hrun, hloaded.mono ?_⟩
  simp only [Place.of]
  omega

theorem run_storeEdge (f : Nat → Nat → α → α) (jp : Nat) (scratch : Array α) (h : s.Holds c.size)
    (hw : s.PanelsFit tileCols) (ht : t * rows < s.m) (hrows : 0 < rows)
    (hvalue : ∀ jj < min tileCols (s.n - jp * tileCols), ∀ ii < min rows (s.m - t * rows),
      ∀ old, s.element? c (t * rows + ii) (jp * tileCols + jj) = some old →
        scratch.getD (jj * rows + ii) ar.zero = f (t * rows + ii) (jp * tileCols + jj) old) :
    (storeEdge ar (Place.of s rows (Panel.nth s c.size tileCols jp) jp t) rows scratch).run
        (s.overwrite f (above (jp * tileCols) (t * rows)) c) =
      .ok () (s.overwrite f (above (jp * tileCols) ((t + 1) * rows)) c) := by
  rw [← overwrite_within_zero, ← overwrite_tile_done]
  obtain ⟨_, hrun, -⟩ := run_forColumns (P := fun _ (_ : Unit) => True)
    (S := fun jj => s.overwrite f (within (jp * tileCols) (t * rows) rows jj 0) c)
    (f := fun _ j start => (List.range (min rows (s.m - t * rows))).forM fun i =>
      Run.write (start + i) (scratch.getD (j * rows + i) ar.zero)) h hw ht hrows trivial
    fun jj hjj _ _ => by
      refine ⟨(), ?_, trivial⟩
      rw [← overwrite_column_done (by omega)]
      refine Run.run_forM_range
        (S := fun ii => s.overwrite f (within (jp * tileCols) (t * rows) rows jj ii) c)
        fun ii hii => ?_
      obtain ⟨hi, hj, _, _⟩ := place_inside hjj hii
      have hin := h.inside _ hi _ hj
      have hposition : t * rows + (jp * tileCols + jj) * s.ldc + ii =
        t * rows + ii + (jp * tileCols + jj) * s.ldc := by omega
      rw [hposition, Run.run_write (by simpa using hin),
        hvalue jj hjj ii hii _ (Array.getElem?_eq_getElem hin)]
      exact congrArg _ (GemmShape.overwrite_visit h.rows hi hj
        (fun i _ j _ => within_next _ _ _ _ _ i j) (within_new _ _ _ _ _)
        (Array.getElem?_eq_getElem hin))
  exact hrun

end

-- ---------------------------------------------------------------------------
-- Tiles
-- ---------------------------------------------------------------------------

/-- A key of beta zero leaves the old value unread. -/
theorem floatFinish_betaZero (fused : Bool) (alpha beta : α) (bias : Option α)
    (old old' sum : α) :
    Tile.floatFinish ar fused true alpha beta bias old sum =
      Tile.floatFinish ar fused true alpha beta bias old' sum := rfl

section

variable {s : GemmShape} {a b : Operand α} {c : Array α} {rows jp t : Nat}

/-- The kernel on the scratch tile gives the elements of C their new values, whether their old ones
were loaded or are not wanted. -/
theorem getD_onScratch {call : FloatCall α} {x y : Array α} {bias : Option (Array α)}
    {scratch : Array α} {jj ii : Nat} {old : α} (hrows : call.rows = rows)
    (hsize : scratch.size = rows * tileCols) (hjj : jj < tileCols) (hii : ii < rows)
    (hold : call.betaZero = true ∨ scratch[jj * rows + ii]? = some old) :
    (onScratch ar call x y bias scratch).getD (jj * rows + ii) ar.zero =
      call.value ar x y bias ii jj old := by
  have hlt : jj * rows + ii < scratch.size := hsize ▸ scratch_lt hjj hii
  obtain ⟨hmod, hdiv⟩ := scratch_mod_div jj hii
  have hentry : (onScratch ar call x y bias scratch).getD (jj * rows + ii) ar.zero =
      call.value ar x y bias ii jj scratch[jj * rows + ii] := by
    simp [onScratch, Array.getD_eq_getD_getElem?, hlt, hrows, hmod, hdiv]
  rw [hentry]
  rcases hold with hzero | hold
  · rw [FloatCall.value, FloatCall.value, hzero]
    exact floatFinish_betaZero ar _ _ _ _ _ _ _
  · rw [Array.getElem?_eq_getElem hlt, Option.some.injEq] at hold
    rw [hold]

section

variable {call : FloatCall α} {x y : Array α} {bias : Option (Array α)} {scratch : Array α}
  (f : Nat → Nat → α → α)

theorem run_inPlace (h : s.Holds c.size) (hw : s.PanelsFit tileCols) (hrows : call.rows = rows)
    (hm : min rows (s.m - t * rows) = rows)
    (hn : min tileCols (s.n - jp * tileCols) = tileCols)
    (hvalue : ∀ jj < min tileCols (s.n - jp * tileCols), ∀ ii < min rows (s.m - t * rows), ∀ old,
      call.value ar x y bias ii jj old = f (t * rows + ii) (jp * tileCols + jj) old) :
    (inPlace ar call (Place.of s rows (Panel.nth s c.size tileCols jp) jp t) x y bias).run
        (s.overwrite f (above (jp * tileCols) (t * rows)) c) =
      .ok () (s.overwrite f (above (jp * tileCols) ((t + 1) * rows)) c) := by
  rw [inPlace, hrows]
  refine run_tile hm hn fun jj hjj ii hii => ?_
  rw [← hn] at hjj
  rw [← hm] at hii
  obtain ⟨hi, hj, _, _⟩ := place_inside hjj hii
  rw [Place.cell_eq h hw hjj hii, pure_bind]
  exact GemmShape.run_visit h hi hj (fun i _ j _ => within_next _ _ _ _ _ i j)
    (within_new _ _ _ _ _) (hvalue jj hjj ii hii)

theorem run_edge (h : s.Holds c.size) (hw : s.PanelsFit tileCols) (hrows : call.rows = rows)
    (hpos : 0 < rows) (ht : t * rows < s.m) (hscratch : scratch.size = rows * tileCols)
    (hvalue : ∀ jj < min tileCols (s.n - jp * tileCols), ∀ ii < min rows (s.m - t * rows), ∀ old,
      call.value ar x y bias ii jj old = f (t * rows + ii) (jp * tileCols + jj) old) :
    let p := Place.of s rows (Panel.nth s c.size tileCols jp) jp t
    let edge : Run α (Array α) := do
      let scratch ← if call.betaZero then pure scratch else loadEdge p rows scratch
      storeEdge ar p rows (onScratch ar call x y bias scratch)
      return onScratch ar call x y bias scratch
    ∃ scratch', edge.run (s.overwrite f (above (jp * tileCols) (t * rows)) c) =
        .ok scratch' (s.overwrite f (above (jp * tileCols) ((t + 1) * rows)) c) ∧
      scratch'.size = rows * tileCols := by
  intro p edge
  -- once the elements of C are loaded, or beta is zero, the rest is the same
  have hrest (loaded : Array α) (hsize : loaded.size = rows * tileCols)
      (hentry : ∀ jj < min tileCols (s.n - jp * tileCols), ∀ ii < min rows (s.m - t * rows),
        ∀ old, s.element? c (t * rows + ii) (jp * tileCols + jj) = some old →
        call.betaZero = true ∨ loaded[jj * rows + ii]? = some old) :=
    run_storeEdge ar f jp (onScratch ar call x y bias loaded) h hw ht hpos
      fun jj hjj ii hii old hold => by
        rw [getD_onScratch ar hrows hsize (by omega) (by omega) (hentry jj hjj ii hii old hold)]
        exact hvalue jj hjj ii hii old
  by_cases hz : call.betaZero = true
  · simp only [edge, if_pos hz]
    refine ⟨_, Run.run_bind_ok (hrest scratch hscratch fun _ _ _ _ _ _ => .inl hz), ?_⟩
    simpa [onScratch] using hscratch
  · simp only [edge, if_neg hz]
    obtain ⟨loaded, hrun, hloaded⟩ := run_loadEdge f jp h hw ht hpos hscratch
    rw [Run.run_bind_ok hrun]
    refine ⟨_, Run.run_bind_ok (hrest loaded hloaded.size fun jj hjj ii hii old hold => .inr ?_),
      ?_⟩
    · rw [hloaded.entry jj (by omega) ii (by omega) ⟨hjj, hii⟩, hold]
    · simpa [onScratch] using hloaded.size

end

theorem run_floatTile {call : FloatCall α} {bias : Option (Array α)} {scratch : Array α}
    (h : s.Ready a b c.size) (hw : s.PanelsFit tileCols)
    (hbias : ∀ xs, bias = some xs → s.m ≤ xs.size)
    (hrows : call.rows = rows) (hsteps : call.steps = s.k)
    (hzero : call.betaZero = ar.isZero call.beta) (hpos : 0 < rows) (ht : t * rows < s.m)
    (hscratch : scratch.size = rows * tileCols) :
    let f := floatValue ar call.fused a b s.k call.alpha call.beta bias
    ∃ scratch', (floatTile ar call (Place.of s rows (Panel.nth s c.size tileCols jp) jp t)
        bias (Packing.table s.k rows (Packing.rowEntry ar.zero a rows t)).toArray
        (Packing.table s.k tileCols (Packing.columnEntry ar.zero b (jp * tileCols)
          (min tileCols (s.n - jp * tileCols)))).toArray scratch).run
        (s.overwrite f (above (jp * tileCols) (t * rows)) c) =
        .ok scratch' (s.overwrite f (above (jp * tileCols) ((t + 1) * rows)) c) ∧
      scratch'.size = rows * tileCols := by
  intro f
  have hvalue (jj : Nat) (hjj : jj < min tileCols (s.n - jp * tileCols)) (ii : Nat)
      (hii : ii < min rows (s.m - t * rows)) (old : α) :=
    call_value ar bias (Panel.nth s c.size tileCols jp) h hrows hsteps hzero hjj hii old
  have hpart := tileBias_eq ar (p := Place.of s rows (Panel.nth s c.size tileCols jp) jp t)
    (fun xs (hxs : bias = some xs) => by
      have hlen := hbias xs hxs
      simp only [Place.of]
      omega) rows
  rw [floatTile, hrows, hpart, pure_bind]
  split
  · rename_i hfull
    obtain ⟨hm, hn⟩ : min rows (s.m - t * rows) = rows ∧
      min tileCols (s.n - jp * tileCols) = tileCols := hfull
    exact ⟨scratch, Run.run_bind_ok (run_inPlace ar f h.holds hw hrows hm hn hvalue), hscratch⟩
  · exact run_edge ar f h.holds hw hrows hpos ht hscratch hvalue

end

theorem run_float {A B : Type} {q : Request α A B} {a b : Operand α} {c : Array α} {rows : Nat}
    (h : q.shape.Ready a b c.size) (hbias : ∀ xs, q.bias = some xs → q.shape.m ≤ xs.size)
    (hk : 0 < q.shape.k) (hw : q.shape.PanelsFit tileCols) (hrows : 0 < rows)
    (hpack : q.shape.Packable rows) (fused : Bool) (team : Work.Team) :
    (float ar team fused rows q a b).run c =
      .ok () (q.shape.overwrite (floatValue ar fused a b q.shape.k q.alpha q.beta q.bias)
        (fun _ _ => true) c) := by
  simp only [float]
  rw [h.packA_eq hk hrows hpack.a, pure_bind]
  refine h.holds.run_overPanels (by decide) hw team fun jp hjp => ?_
  rw [h.packB_eq hpack.b ar.zero hjp, pure_bind, Run.zeros_eq hpack.tile, pure_bind,
    h.cutTiles_eq hk hrows hpack.a, pure_bind, ← overwrite_above_zero jp rows,
    ← overwrite_panel_done hrows]
  have hlength : (Packing.tiles ar.zero a rows).zipIdx.length = Size.ceilDiv q.shape.m rows := by
    rw [List.length_zipIdx, Packing.length_tiles, h.rowsA]
  rw [← hlength]
  obtain ⟨_, hrun, -⟩ := Run.run_foldlM (l := (Packing.tiles ar.zero a rows).zipIdx)
    (f := fun scratch tile => floatTile ar
      { fused, rows, steps := q.shape.k, alpha := q.alpha, beta := q.beta,
        betaZero := ar.isZero q.beta }
      (Place.of q.shape rows (Panel.nth q.shape c.size tileCols jp) jp tile.2) q.bias tile.1
      (Packing.table q.shape.k tileCols (Packing.columnEntry ar.zero b (jp * tileCols)
        (min tileCols (q.shape.n - jp * tileCols)))).toArray scratch)
    (P := fun _ scratch => scratch.size = rows * tileCols)
    (S := fun t => q.shape.overwrite
      (floatValue ar fused a b q.shape.k q.alpha q.beta q.bias)
      (above (jp * tileCols) (t * rows)) c)
    (z := Array.replicate (rows * tileCols) ar.zero) (by simp)
    fun t ht scratch hscratch => by
      have ht : t * rows < q.shape.m := (Size.lt_ceilDiv hrows).mp (hlength ▸ ht)
      simp only [List.getElem_zipIdx, Packing.getElem_tiles, Nat.zero_add]
      rw [h.colsA]
      exact run_floatTile ar h hw hbias rfl rfl rfl hrows ht hscratch
  exact Run.run_bind_ok hrun

end JitGemm.Blocked
