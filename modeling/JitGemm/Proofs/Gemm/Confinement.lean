import JitGemm.Proofs.Gemm.TileOrder

/-!
# Runs confined to the block

Tiles write elements of the block and nothing else, whatever was packed for them and whether their
run comes to its end or not. It is enough to follow what a view shows of C that sees nothing of the
block: every step of a run keeps it.
-/

namespace JitGemm

-- ---------------------------------------------------------------------------
-- Changes confined to the block
-- ---------------------------------------------------------------------------

section

variable {γ : Type}

/-- From `c` to `c'` only elements of the block change. -/
structure GemmShape.Confined (s : GemmShape) (c c' : Array γ) : Prop where
  size : c'.size = c.size
  outside : s.SameOutside c' c

/-- A view that sees nothing of the block. -/
def GemmShape.Hides {δ : Type} (s : GemmShape) (view : Array γ → δ) : Prop :=
  ∀ i < s.m, ∀ j < s.n, ∀ (c : Array γ) v, view (c.setIfInBounds (i + j * s.ldc) v) = view c

variable {s : GemmShape} {c c' c'' : Array γ}

namespace GemmShape

theorem Confined.refl (s : GemmShape) (c : Array γ) : s.Confined c c := ⟨rfl, fun _ _ => rfl⟩

theorem Confined.trans (h : s.Confined c c') (h' : s.Confined c' c'') : s.Confined c c'' where
  size := h'.size.trans h.size
  outside := fun x hx => (h'.outside x hx).trans (h.outside x hx)

theorem confined_overwrite (f : Nat → Nat → γ → γ) (done : Nat → Nat → Bool) :
    s.Confined c (s.overwrite f done c) := ⟨size_overwrite, overwrite_sameOutside⟩

theorem hides_size : s.Hides (Array.size : Array γ → Nat) := fun i _ j _ _ _ => by simp

theorem hides_outside {x : Nat} (hx : ∀ i < s.m, ∀ j < s.n, x ≠ i + j * s.ldc) :
    s.Hides fun d : Array γ => d[x]? := fun i hi j hj _ _ =>
  Array.getElem?_setIfInBounds_ne (hx i hi j hj).symm

end GemmShape

namespace Run

variable {β σ : Type}

/-- A run on `c` that changes elements of the block only, whether it ends well or not. -/
def Confined (s : GemmShape) (run : Run γ β) (c : Array γ) : Prop := s.Confined c (run.left c)

theorem confined_of_overwrite {run : Run γ β} {b : β} {f : Nat → Nat → γ → γ}
    {done : Nat → Nat → Bool} (h : run.run c = .ok b (s.overwrite f done c)) :
    run.Confined s c := by
  rw [Run.Confined, left_of_ok h]
  exact GemmShape.confined_overwrite f done

theorem confined_of_views {run : Run γ β}
    (h : ∀ {δ : Type} (view : Array γ → δ), s.Hides view → view (run.left c) = view c) :
    run.Confined s c :=
  ⟨h _ GemmShape.hides_size, fun _ hx => h _ (GemmShape.hides_outside hx)⟩

theorem confined_pure (b : β) : (pure b : Run γ β).Confined s c := GemmShape.Confined.refl s c

theorem Confined.bind {x : Run γ β} {f : β → Run γ σ} (hx : x.Confined s c)
    (hf : ∀ b, (f b).Confined s (x.left c)) : (x >>= f).Confined s c := by
  rw [Run.Confined]
  rcases left_bind x f c with hleft | ⟨b, hleft⟩
  · rw [hleft]
    exact hx
  · rw [hleft]
    exact hx.trans (hf b)

end Run

end

-- ---------------------------------------------------------------------------
-- Steps that only read
-- ---------------------------------------------------------------------------

section

variable {V γ δ : Type} {view : Array γ → δ}

namespace Run

theorem keeps_zeros (zero : V) (length : Nat) :
    (zeros zero length : Run γ (Array V)).Keeps view := by
  simp only [zeros]
  split
  · exact keeps_pure _
  · exact keeps_throw _

theorem keeps_onBuffer (buffer : Array V) (work : Run V Unit) :
    (onBuffer buffer work : Run γ (Array V)).Keeps view := by
  rw [onBuffer]
  split
  · exact keeps_pure _
  · exact keeps_throw _

/-- A first step that only reads leaves the rest of the run where it was. -/
theorem kept_bind {β σ : Type} {x : Run γ β} {f : β → Run γ σ} {c : Array γ}
    (hx : x.Keeps id) (hf : ∀ b, view ((f b).left c) = view c) :
    view ((x >>= f).left c) = view c := by
  have hsame : x.left c = c := hx c
  rcases left_bind x f c with hleft | ⟨b, hleft⟩
  · rw [hleft, hsame]
  · rw [hleft, hsame, hf]

/-- Work that keeps a view on every panel of the block keeps it on all of C. -/
theorem kept_overPanels {s : GemmShape} {nr : Nat} {c : Array γ} (h : s.Holds c.size)
    (hnr : 0 < nr) (hw : s.PanelsFit nr) (team : Work.Team) {work : Nat → Panel → Run γ Unit}
    (hwork : ∀ p, p * nr < s.n → (work p (Panel.nth s c.size nr p)).Keeps view) :
    view ((overPanels team s.ldc nr s.n work).left c) = view c := by
  rw [left, overPanels_eq h hnr hw team work]
  exact Keeps.forM (fun p hp => hwork p ((Size.lt_ceilDiv hnr).mp (List.mem_range.mp hp))) c

end Run

namespace Packing

theorem keeps_packA (zero : V) (x : Operand V) (mr : Nat) :
    (packA zero x mr : Run γ (Array V)).Keeps view :=
  (Run.keeps_zeros _ _).bind fun _ => Run.keeps_onBuffer _ _

theorem keeps_packB (zero : V) (x : Operand V) (j0 nb nr : Nat) :
    (packB zero x j0 nb nr : Run γ (Array V)).Keeps view :=
  (Run.keeps_zeros _ _).bind fun _ => Run.keeps_onBuffer _ _

theorem keeps_cutTiles (packed : Array V) (steps mr : Nat) :
    (cutTiles packed steps mr : Run γ (List (Array V))).Keeps view := by
  simp only [cutTiles]
  split
  · exact Run.keeps_throw _
  · exact Run.keeps_pure _

end Packing

end

-- ---------------------------------------------------------------------------
-- Tiles
-- ---------------------------------------------------------------------------

theorem Reference.keeps_writeQuantized {α δ : Type} (ar : Arith α) {view : Array Int32 → δ}
    {position : Nat} (hview : ∀ c v, view (c.setIfInBounds position v) = view c) (alpha beta : α)
    (offset : Option Offset) (i j : Nat) (sum : Int32) :
    (writeQuantized ar alpha beta offset position i j sum).Keeps view := by
  have hoffset : (offsetAt offset i j : Run Int32 Int32).Keeps view := by
    cases offset with
    | none => exact Run.keeps_pure _
    | some o => exact Run.keeps_fetch _ _
  exact hoffset.bind fun _ => (Run.keeps_read _).bind fun _ => Run.keeps_write hview _

namespace Blocked

variable {α : Type} (ar : Arith α)

section

variable {δ : Type} {view : Array α → δ}

theorem keeps_tileBias (p : Place) (rows : Nat) (bias : Option (Array α)) :
    (tileBias ar p rows bias).Keeps view := by
  cases bias with
  | none => exact Run.keeps_pure _
  | some xs =>
    refine (Run.Keeps.mapM fun i _ => ?_).bind fun _ => Run.keeps_pure _
    split
    · exact Run.keeps_fetch _ _
    · exact Run.keeps_pure _

theorem keeps_loadEdge (p : Place) (rows : Nat) (scratch : Array α) :
    (loadEdge p rows scratch).Keeps view :=
  .foldlM (fun _ _ _ => (Panel.keeps_slice _ _ _).bind fun _ =>
    .foldlM (fun _ _ _ => (Run.keeps_read _).bind fun _ => Run.keeps_pure _) _) _

theorem keeps_compensation {γ : Type} {view : Array γ → δ} (a : Operand Int32) (shift : Int32) :
    (compensation a shift : Run γ (Array Int32)).Keeps view :=
  (Run.Keeps.mapM fun _ _ => (Run.Keeps.foldlM (fun _ _ _ => (a.keeps_entry _ _).bind fun _ =>
    Run.keeps_pure _) _).bind fun _ => Run.keeps_pure _).bind fun _ => Run.keeps_pure _

end

section

variable {s : GemmShape} {size rows jp t : Nat} (h : s.Holds size) (hw : s.PanelsFit tileCols)

include h hw

section

variable {δ : Type} {view : Array α → δ} (hview : s.Hides view)

include hview

theorem keeps_inPlace {c : FloatCall α} {a b : Array α} {bias : Option (Array α)}
    (hm : min c.rows (s.m - t * c.rows) = c.rows)
    (hn : min tileCols (s.n - jp * tileCols) = tileCols) :
    (inPlace ar c (Place.of s c.rows (Panel.nth s size tileCols jp) jp t) a b bias).Keeps view := by
  refine .forM fun j hj => .forM fun i hi => ?_
  have hjj : j < min tileCols (s.n - jp * tileCols) := hn.symm ▸ List.mem_range.mp hj
  have hii : i < min c.rows (s.m - t * c.rows) := hm.symm ▸ List.mem_range.mp hi
  obtain ⟨hrow, hcolumn, -, -⟩ := place_inside hjj hii
  rw [Place.cell_eq h hw hjj hii, pure_bind]
  exact (Run.keeps_read _).bind fun _ => Run.keeps_write (hview _ hrow _ hcolumn) _

theorem keeps_storeEdge (hrows : 0 < rows) (scratch : Array α) :
    (storeEdge ar (Place.of s rows (Panel.nth s size tileCols jp) jp t) rows scratch).Keeps
      view := by
  refine .foldlM (fun _ j hj => ?_) ()
  have hjj : j < min tileCols (s.n - jp * tileCols) := List.mem_range.mp hj
  by_cases ht : t * rows < s.m
  · rw [Place.slice_eq h hw hjj ht hrows, pure_bind]
    refine .forM fun i hi => ?_
    obtain ⟨hrow, hcolumn, -, -⟩ := place_inside hjj (List.mem_range.mp hi)
    rw [Nat.add_right_comm]
    exact Run.keeps_write (hview _ hrow _ hcolumn) _
  · -- a tile below the block has no rows in C
    refine (Panel.keeps_slice _ _ _).bind fun _ => .forM fun i hi => ?_
    have hi : i < min rows (s.m - t * rows) := List.mem_range.mp hi
    omega

theorem keeps_floatTile {c : FloatCall α} (hrows : 0 < c.rows) (bias : Option (Array α))
    (a b scratch : Array α) :
    (floatTile ar c (Place.of s c.rows (Panel.nth s size tileCols jp) jp t) bias a b
      scratch).Keeps view := by
  refine (keeps_tileBias ar _ _ _).bind fun bias => ?_
  split
  · rename_i hfull
    exact (keeps_inPlace ar h hw hview hfull.1 hfull.2).bind fun _ => Run.keeps_pure _
  · have hstore (scratch : Array α) :
        (storeEdge ar (Place.of s c.rows (Panel.nth s size tileCols jp) jp t) c.rows
          scratch).Keeps view := keeps_storeEdge ar h hw hview hrows scratch
    split
    · exact (Run.keeps_pure _).bind fun _ => (hstore _).bind fun _ => Run.keeps_pure _
    · exact (keeps_loadEdge _ _ _).bind fun _ => (hstore _).bind fun _ => Run.keeps_pure _

end

theorem keeps_intTile {δ : Type} {view : Array Int32 → δ} (hview : s.Hides view)
    (alpha beta : α) (offset : Option Offset) (steps : Nat) (a b comp : Array Int32) :
    (intTile ar alpha beta offset (Place.of s rows (Panel.nth s size tileCols jp) jp t) rows steps
      a b comp).Keeps view := by
  refine .forM fun j hj => .forM fun i hi => ?_
  have hjj : j < min tileCols (s.n - jp * tileCols) := List.mem_range.mp hj
  have hii : i < min rows (s.m - t * rows) := List.mem_range.mp hi
  obtain ⟨hrow, hcolumn, -, -⟩ := place_inside hjj hii
  rw [Place.cell_eq h hw hjj hii, pure_bind]
  exact Reference.keeps_writeQuantized ar (hview _ hrow _ hcolumn) _ _ _ _ _ _

end

-- ---------------------------------------------------------------------------
-- Products
-- ---------------------------------------------------------------------------

section

variable {A B : Type} {q : Request α A B} {rows : Nat}

theorem float_confined {a b : Operand α} {c : Array α} (h : q.shape.Holds c.size)
    (hw : q.shape.PanelsFit tileCols) (hrows : 0 < rows) (fused : Bool) (team : Work.Team) :
    (float ar team fused rows q a b).Confined q.shape c := by
  refine Run.confined_of_views fun view hview => ?_
  simp only [float]
  refine Run.kept_bind (Packing.keeps_packA _ _ _) fun packedA =>
    Run.kept_overPanels h (by decide) hw team fun jp _ => ?_
  refine (Packing.keeps_packB _ _ _ _ _).bind fun packedB => (Run.keeps_zeros _ _).bind fun z =>
    (Packing.keeps_cutTiles _ _ _).bind fun tiles => ?_
  exact (Run.Keeps.foldlM (fun scratch tile _ =>
    keeps_floatTile ar h hw hview hrows _ _ _ _) z).bind fun _ => Run.keeps_pure _

theorem int_confined {a b : Operand Int32} {c : Array Int32} (h : q.shape.Holds c.size)
    (hw : q.shape.PanelsFit tileCols) (shift : Int32) (team : Work.Team) :
    (int ar team rows shift q a b).Confined q.shape c := by
  refine Run.confined_of_views fun view hview => ?_
  simp only [int]
  refine Run.kept_bind (Packing.keeps_packA _ _ _) fun packedA =>
    Run.kept_bind (keeps_compensation _ _) fun comp =>
    Run.kept_overPanels h (by decide) hw team fun jp _ => ?_
  exact (Packing.keeps_packB _ _ _ _ _).bind fun packedB => (Run.keeps_zeros _ _).bind fun _ =>
    (Packing.keeps_cutTiles _ _ _).bind fun tiles => .forM fun tile _ =>
    keeps_intTile ar h hw hview _ _ _ _ _ _ _

end

end Blocked

end JitGemm
