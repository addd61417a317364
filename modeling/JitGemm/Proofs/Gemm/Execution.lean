import JitGemm.Proofs.Gemm.BlockedFloat
import JitGemm.Proofs.Gemm.BlockedInt
import JitGemm.Proofs.Gemm.Requests
import Mathlib.Algebra.Group.Nat.Defs

/-!
# Which accepted calls can be executed

Validation bounds C by its last element. With two columns this bounds the leading dimension too, but
the leading dimension of a lone column is free, and the width of a tile panel, four times that, is a
64-bit product. So are the lengths of packed operands. Everything else an accepted call computes is
in range.
-/

namespace JitGemm

/-- Every index into a buffer of `length` elements is exact and inside. -/
def Matrix.InReach (x : Matrix) (length : Nat) : Prop :=
  ∀ r < x.rows, ∀ c < x.cols, x.index r c = x.exactIndex r c ∧ x.index r c < length

theorem Matrix.Covered.inReach {x : Matrix} {length : Nat} (h : x.Covered length) :
    x.InReach length := by
  intro r hr c hc
  have hindex := h.index_eq hr hc
  exact ⟨hindex, hindex ▸ h.exactIndex_lt hr hc⟩

/-- The leading dimension of two columns is bounded by the size of C. -/
theorem Outline.Accepted.wide {o : Outline} (h : o.Accepted) (hwork : o.shape.degenerate = false)
    (hbytes : o.elemC.bytes = 4) (hn : 2 ≤ o.shape.n) :
    o.shape.ldc * tileCols < Size.modulus := by
  have hm := (h.holds (GemmShape.block_of_work hwork)).m
  have hin := h.c.exactIndex_lt (r := 0) (c := 1) hm hn
  have hlimit := h.fits.bytesC
  rw [hbytes] at hlimit
  simp only [Matrix.exactIndex, GemmShape.c, Transpose.isTrans, Bool.false_eq_true, if_false] at hin
  simp only [Size.objectLimit, Size.modulus, tileCols] at hlimit ⊢
  omega

theorem Outline.Accepted.panelsFit_iff {o : Outline} (h : o.Accepted)
    (hwork : o.shape.degenerate = false) (hbytes : o.elemC.bytes = 4) :
    o.shape.PanelsFit tileCols ↔
      (o.shape.n = 1 → o.shape.m ≤ Size.wrap (o.shape.ldc * tileCols)) := by
  have hn := (h.holds (GemmShape.block_of_work hwork)).n
  have hrows := h.c.rows
  constructor
  · rintro (hw | ⟨-, hw⟩) _
    · rw [Size.wrap_of_lt hw]
      exact Nat.le_trans hrows (Nat.le_mul_of_pos_right _ (by decide))
    · exact hw
  · intro hlone
    by_cases hone : o.shape.n = 1
    · exact .inr ⟨hone, hlone hone⟩
    · exact .inl (h.wide hwork hbytes (by omega))

-- ---------------------------------------------------------------------------
-- Panels and packed operands
-- ---------------------------------------------------------------------------

namespace Panel

variable {γ : Type} {p : Panel} {i count : Nat} {c : Array γ}

theorem lt_of_cell (h : (p.cell i : Run γ Nat).Ends c) : i < p.length := by
  obtain ⟨_, _, h⟩ := h
  rw [cell] at h
  split at h
  · assumption
  · cases h

theorem le_of_slice (h : (p.slice i count : Run γ Nat).Ends c) : i + count ≤ p.length := by
  obtain ⟨_, _, h⟩ := h
  rw [slice] at h
  split at h
  · assumption
  · cases h

end Panel

/-- The first panel is worked on. -/
theorem Run.Ends.overPanels {γ : Type} {s : GemmShape} {nr : Nat} {c : Array γ}
    (h : s.Holds c.size) (hnr : 0 < nr) {team : Work.Team} {work : Nat → Panel → Run γ Unit}
    (hends : (Run.overPanels team s.ldc nr s.n work).Ends c) :
    ∃ d, (work 0 (Panel.nth s c.size nr 0)).Ends d := by
  obtain ⟨_, c', hends⟩ := hends
  rw [Run.overPanels, run_bind_ok (EStateM.run_get c)] at hends
  by_cases hzero : Size.wrap (s.ldc * nr) = 0
  · simp only [Panel.split?, hzero, if_true] at hends
    cases hends
  · obtain ⟨count, hcount⟩ : ∃ count, min (Size.ceilDiv s.n nr)
        (Size.ceilDiv c.size (Size.wrap (s.ldc * nr))) = count := ⟨_, rfl⟩
    have hsplit : Panel.split? c.size s.ldc nr s.n =
        some ((List.range count).map (Panel.nth s c.size nr)) := by
      simp only [Panel.split?, if_neg hzero, hcount]
      rfl
    have hsize := h.inside 0 h.m 0 h.n
    have hpos : 0 < count := by
      have hcolumns := (Size.lt_ceilDiv (p := 0) (n := s.n) hnr).mpr (by have := h.n; omega)
      have hchunks := (Size.lt_ceilDiv (p := 0) (n := c.size) (Nat.pos_of_ne_zero hzero)).mpr
        (by omega)
      omega
    have hword : count < Size.modulus := by
      have hle : count ≤ Size.ceilDiv s.n nr := hcount ▸ Nat.min_le_left _ _
      exact Nat.lt_of_le_of_lt (Nat.le_trans hle (Size.ceilDiv_le_self hnr)) h.wordN
    simp only [hsplit, List.length_map, List.length_range, Work.Team.items_eq team hword] at hends
    obtain ⟨d, d', hd⟩ := forM_round_ok hends (i := 0) (List.mem_range.mpr hpos)
    rw [List.getElem?_map, List.getElem?_range hpos] at hd
    exact ⟨d, (), d', hd⟩

namespace Packing

variable {V γ : Type} {x : Operand V} {mr : Nat}

/-- A piece reaches to its last step. -/
theorem reach_of_copySteps {piece : Panel} {steps width lanes : Nat} {entry : Nat → Nat → Run V V}
    {d : Array V} (hsteps : 0 < steps) (hlanes : 0 < lanes)
    (h : (copySteps piece steps width lanes entry).Ends d) :
    (steps - 1) * width < piece.length := by
  obtain ⟨d, h⟩ := h.forM (i := steps - 1) (List.mem_range.mpr (by omega))
  obtain ⟨d, h⟩ := h.forM (i := 0) (List.mem_range.mpr hlanes)
  obtain ⟨-, _, d, h⟩ := h.bind
  exact Panel.lt_of_cell h.bind.1

/-- A buffer for a single tile is not cut short, as its last step would lie past the end. -/
theorem word_of_fillA {zero : V} (hmr : 0 < mr) (hword : mr < Size.modulus)
    (hrows : 0 < x.matrix.rows) (hcols : 0 < x.matrix.cols)
    (h : (fillA x mr).Ends (Array.replicate (Size.wrap (x.matrix.cols * mr)) zero)) :
    x.matrix.cols * mr < Size.modulus := by
  obtain ⟨width, hwidth⟩ : ∃ width, Size.wrap (x.matrix.cols * mr) = width := ⟨_, rfl⟩
  obtain ⟨_, d, h⟩ := h
  rw [fillA, Run.run_bind_ok (EStateM.run_get _)] at h
  simp only [Array.size_replicate, hwidth] at h
  split at h
  · cases h
  · rename_i hzero
    have hfirst : 0 < Size.ceilDiv width width :=
      (Size.lt_ceilDiv (Nat.pos_of_ne_zero hzero)).mpr (by omega)
    obtain ⟨d, d', hd⟩ := Run.forM_round_ok h (List.mem_range.mpr hfirst)
    have hreach := reach_of_copySteps hcols (by omega) ⟨(), d', hd⟩
    have hlast : (x.matrix.cols - 1) * mr + mr = x.matrix.cols * mr := by
      rw [← Nat.succ_mul, Nat.succ_eq_add_one, Nat.sub_add_cancel hcols]
    simp only [Size.wrap, Size.modulus] at hwidth hword hreach ⊢
    omega

/-- A packed A that ends well is as long as it is meant to be, if A has no more elements than an
object has bytes. -/
theorem fits_of_packA {zero : V} {c : Array γ} (hmr : 0 < mr) (hword : mr < Size.modulus)
    (hrows : 0 < x.matrix.rows) (hcols : 0 < x.matrix.cols)
    (hcount : x.matrix.rows * x.matrix.cols ≤ Size.objectLimit)
    (h : (packA zero x mr : Run γ (Array V)).Ends c) :
    Run.BufferFits (Size.ceilDiv x.matrix.rows mr * x.matrix.cols * mr) := by
  have hfits := h.bind.1.zeros
  obtain ⟨count, hceil⟩ : ∃ count, Size.ceilDiv x.matrix.rows mr = count := ⟨_, rfl⟩
  have hpos : 0 < count := hceil ▸ (Size.lt_ceilDiv hmr).mpr (by omega)
  rw [hceil] at hfits ⊢
  suffices hsize : count * x.matrix.cols * mr < Size.modulus by
    rwa [Size.wrap_of_lt hsize] at hfits
  by_cases hone : count = 1
  · subst hone
    rw [packA, hceil, Run.zeros_wrap hfits, pure_bind, Nat.one_mul] at h
    rw [Nat.one_mul]
    exact word_of_fillA hmr hword hrows hcols h.onBuffer
  · -- two tiles or more pack less than twice the rows of A
    have hsecond : 1 * mr < x.matrix.rows := (Size.lt_ceilDiv hmr).mp (by omega)
    have hlast : count * mr < x.matrix.rows + mr := hceil ▸ Size.ceilDiv_mul_lt hmr
    have hall : count * mr ≤ 2 * x.matrix.rows := by omega
    calc count * x.matrix.cols * mr
      _ = count * mr * x.matrix.cols := Nat.mul_right_comm _ _ _
      _ ≤ 2 * x.matrix.rows * x.matrix.cols := Nat.mul_le_mul_right _ hall
      _ = 2 * (x.matrix.rows * x.matrix.cols) := Nat.mul_assoc _ _ _
      _ < Size.modulus := by
        simp only [Size.objectLimit, Size.modulus] at hcount ⊢
        omega

end Packing

/-- Next to a packed A, the other buffers are too small to be cut short. -/
theorem GemmShape.packable_of_wrapped {s : GemmShape} {rows : Nat} (hm : 0 < s.m) (hk : 0 < s.k)
    (hrows : 0 < rows) (ha : Run.BufferFits (Size.ceilDiv s.m rows * s.k * rows))
    (hb : Run.BufferFits (Size.wrap (s.k * tileCols)))
    (htile : Run.BufferFits (Size.wrap (rows * tileCols))) : s.Packable rows := by
  have hcount : 0 < Size.ceilDiv s.m rows := (Size.lt_ceilDiv hrows).mpr (by omega)
  have hk' : s.k ≤ Size.ceilDiv s.m rows * s.k * rows :=
    Nat.le_trans (Nat.le_mul_of_pos_left _ hcount) (Nat.le_mul_of_pos_right _ hrows)
  have hrows' : rows ≤ Size.ceilDiv s.m rows * s.k * rows :=
    Nat.le_mul_of_pos_left _ (Nat.mul_pos hcount hk)
  have hword {n : Nat} (hn : n ≤ Size.ceilDiv s.m rows * s.k * rows) :
      Size.wrap (n * tileCols) = n * tileCols := by
    have hbytes : n * Run.valueBytes ≤ Size.objectLimit := ha.mono hn
    refine Size.wrap_of_lt ?_
    simp only [Run.valueBytes, Size.objectLimit, Size.modulus, tileCols] at hbytes ⊢
    omega
  rw [hword hk'] at hb
  rw [hword hrows'] at htile
  exact ⟨ha, hb, htile⟩

namespace GemmShape.Ready

variable {V γ : Type} {s : GemmShape} {a b : Operand V} {size rows : Nat} (h : s.Ready a b size)

include h

theorem fits_of_packA {zero : V} {c : Array γ} (hk : 0 < s.k) (hrows : 0 < rows)
    (hword : rows < Size.modulus) (hcount : s.m * s.k ≤ Size.objectLimit)
    (hends : (Packing.packA zero a rows : Run γ (Array V)).Ends c) :
    Run.BufferFits (Size.ceilDiv s.m rows * s.k * rows) := by
  have hfits := Packing.fits_of_packA hrows hword (h.rowsA ▸ h.holds.m) (h.colsA ▸ hk)
    (by rwa [h.rowsA, h.colsA]) hends
  rwa [h.rowsA, h.colsA] at hfits

theorem mem_tiles (zero : V) {t : Nat} (ht : t < Size.ceilDiv s.m rows) :
    ((Packing.table a.matrix.cols rows (Packing.rowEntry zero a rows t)).toArray, t) ∈
      (Packing.tiles zero a rows).zipIdx := by
  rw [List.mem_zipIdx_iff_getElem?]
  simp [Packing.tiles, h.rowsA, ht]

end GemmShape.Ready

namespace Blocked

-- ---------------------------------------------------------------------------
-- Tiles
-- ---------------------------------------------------------------------------

theorem last_tile {m rows : Nat} (hm : 0 < m) (hrows : 0 < rows) :
    (m - 1) / rows < Size.ceilDiv m rows ∧ (m - 1) / rows * rows < m ∧
      (m - 1) / rows * rows + min rows (m - (m - 1) / rows * rows) = m := by
  have hdiv := Nat.div_add_mod (m - 1) rows
  have hmod := Nat.mod_lt (m - 1) hrows
  rw [Nat.mul_comm] at hdiv
  exact ⟨(Size.lt_ceilDiv hrows).mpr (by omega), by omega, by omega⟩

section

variable {α : Type} {ar : Arith α}

theorem reach_of_inPlace {c : FloatCall α} {p : Place} {a b : Array α} {bias : Option (Array α)}
    {d : Array α} (hrows : 0 < c.rows) (h : (inPlace ar c p a b bias).Ends d) :
    p.row + c.rows ≤ p.panel.length := by
  obtain ⟨d, h⟩ := h.forM (i := 0) (by decide)
  obtain ⟨d, h⟩ := h.forM (i := c.rows - 1) (List.mem_range.mpr (by omega))
  have hlt := Panel.lt_of_cell h.bind.1
  rw [Place.offset, Nat.zero_mul] at hlt
  omega

theorem reach_of_storeEdge {p : Place} {rows : Nat} {scratch d : Array α} (hcols : 0 < p.numCols)
    (h : (storeEdge ar p rows scratch).Ends d) : p.row + p.numRows ≤ p.panel.length := by
  obtain ⟨_, d, h⟩ := h.foldlM (i := 0) (List.mem_range.mpr hcols)
  have hle := Panel.le_of_slice h.bind.1
  rw [Place.offset, Nat.zero_mul] at hle
  omega

/-- A tile ends well only if its rows are in the panel. -/
theorem reach_of_floatTile {c : FloatCall α} {p : Place} {bias : Option (Array α)}
    {a b scratch d : Array α} (hrows : 0 < c.rows) (hcols : 0 < p.numCols)
    (h : (floatTile ar c p bias a b scratch).Ends d) : p.row + p.numRows ≤ p.panel.length := by
  obtain ⟨-, bias, d, h⟩ := h.bind
  split at h
  · rename_i hfull
    rw [hfull.1]
    exact reach_of_inPlace hrows h.bind.1
  · split at h
    all_goals
      obtain ⟨-, _, d, h⟩ := h.bind
      exact reach_of_storeEdge hcols h.bind.1

theorem reach_of_intTile {alpha beta : α} {offset : Option Offset} {p : Place} {rows steps : Nat}
    {a b comp d : Array Int32} (hrows : 0 < p.numRows) (hcols : 0 < p.numCols)
    (h : (intTile ar alpha beta offset p rows steps a b comp).Ends d) :
    p.row + p.numRows ≤ p.panel.length := by
  obtain ⟨d, h⟩ := h.forM (i := 0) (List.mem_range.mpr hcols)
  obtain ⟨d, h⟩ := h.forM (i := p.numRows - 1) (List.mem_range.mpr (by omega))
  have hlt := Panel.lt_of_cell h.bind.1
  rw [Place.offset, Nat.zero_mul] at hlt
  omega

end

-- ---------------------------------------------------------------------------
-- Tiled products
-- ---------------------------------------------------------------------------

section

variable {α A B : Type} (ar : Arith α) {q : Request α A B} {rows : Nat}

/-- A lone column is in its panel as far as the last tile goes. -/
theorem fit_of_reach {s : GemmShape} {size : Nat} (hm : 0 < s.m) (hone : s.n = 1) (hrows : 0 < rows)
    (h : let p := Place.of s rows (Panel.nth s size tileCols 0) 0 ((s.m - 1) / rows)
      p.row + p.numRows ≤ p.panel.length) : s.PanelsFit tileCols := by
  have hreach := (last_tile hm hrows).2.2
  simp only [Place.of, hreach, Panel.nth] at h
  exact .inr ⟨hone, by omega⟩

theorem float_ends_iff {a b : Operand α} {c : Array α} (h : q.shape.Ready a b c.size)
    (hbias : ∀ xs, q.bias = some xs → q.shape.m ≤ xs.size) (hk : 0 < q.shape.k)
    (hcount : q.shape.m * q.shape.k ≤ Size.objectLimit) (hrows : 0 < rows)
    (hword : rows < Size.modulus)
    (hwide : 2 ≤ q.shape.n → q.shape.ldc * tileCols < Size.modulus) (fused : Bool)
    (team : Work.Team) :
    Run.Ends (float ar team fused rows q a b) c ↔
      q.shape.PanelsFit tileCols ∧ q.shape.Packable rows := by
  constructor
  · intro hends
    simp only [float] at hends
    have hfits := h.fits_of_packA hk hrows hword hcount hends.bind.1
    rw [h.packA_eq hk hrows hfits, pure_bind] at hends
    obtain ⟨d, hends⟩ := hends.overPanels h.holds (by decide)
    obtain ⟨hpackB, packedB, d, hends⟩ := hends.bind
    obtain ⟨htile, scratch, d, hends⟩ := hends.bind
    refine ⟨?_, GemmShape.packable_of_wrapped h.holds.m hk hrows hfits
      (h.rowsB ▸ hpackB.bind.1.zeros) htile.zeros⟩
    by_cases hone : q.shape.n = 1
    · rw [h.cutTiles_eq hk hrows hfits, pure_bind] at hends
      have hlast := (last_tile h.holds.m hrows).1
      obtain ⟨scratch, d, hends⟩ := hends.bind.1.foldlM (h.mem_tiles ar.zero hlast)
      exact fit_of_reach h.holds.m hone hrows
        (reach_of_floatTile hrows (by simp [Place.of, hone, tileCols]) hends)
    · have hn := h.holds.n
      exact .inl (hwide (by omega))
  · rintro ⟨hw, hpack⟩
    exact ⟨_, _, run_float ar h hbias hk hw hrows hpack fused team⟩

theorem int_ends_iff {a b : Operand Int32} {c : Array Int32} (h : q.shape.Ready a b c.size)
    (hoffset : Offset.Reaches q.offset q.shape.m q.shape.n) (hk : 0 < q.shape.k)
    (hcount : q.shape.m * q.shape.k ≤ Size.objectLimit) (hrows : 0 < rows)
    (hword : rows < Size.modulus)
    (hwide : 2 ≤ q.shape.n → q.shape.ldc * tileCols < Size.modulus) (shift : Int32)
    (team : Work.Team) :
    Run.Ends (int ar team rows shift q a b) c ↔
      q.shape.PanelsFit tileCols ∧ q.shape.Packable rows := by
  constructor
  · intro hends
    simp only [int] at hends
    have hfits := h.fits_of_packA hk hrows hword hcount hends.bind.1
    rw [h.packA_eq hk hrows hfits, pure_bind, compensation_eq h, pure_bind] at hends
    obtain ⟨d, hends⟩ := hends.overPanels h.holds (by decide)
    obtain ⟨hpackB, packedB, d, hends⟩ := hends.bind
    obtain ⟨htile, scratch, d, hends⟩ := hends.bind
    refine ⟨?_, GemmShape.packable_of_wrapped h.holds.m hk hrows hfits
      (h.rowsB ▸ hpackB.bind.1.zeros) htile.zeros⟩
    by_cases hone : q.shape.n = 1
    · rw [h.cutTiles_eq hk hrows hfits, pure_bind] at hends
      obtain ⟨hlast, hrow, -⟩ := last_tile h.holds.m hrows
      obtain ⟨d, hends⟩ := hends.forM (h.mem_tiles 0 hlast)
      exact fit_of_reach h.holds.m hone hrows
        (reach_of_intTile (by simp only [Place.of]; omega) (by simp [Place.of, hone, tileCols])
          hends)
    · have hn := h.holds.n
      exact .inl (hwide (by omega))
  · rintro ⟨hw, hpack⟩
    exact ⟨_, _, run_int ar h hoffset hk hw hrows hpack shift team⟩

end

end Blocked

-- ---------------------------------------------------------------------------
-- Calls
-- ---------------------------------------------------------------------------

/-- Every index into the operands and C is exact and inside. -/
def Outline.InReach (o : Outline) : Prop :=
  (o.shape.a o.elemA).InReach o.lenA ∧ (o.shape.b o.elemB).InReach o.lenB ∧
    (o.shape.c o.elemC).InReach o.lenC

theorem Outline.Accepted.inReach {o : Outline} (h : o.Accepted) : o.InReach :=
  ⟨h.a.inReach, h.b.inReach, h.c.inReach⟩

/-- An accepted call with work to do has every index in range, and the reference kernels and the
bias pass come to their end. So do the tiles, of any height and by any team, unless C is a lone
column whose panel is cut short, or a packed operand would be larger than an object can be: the
width of a panel can wrap for a lone column only, and a packed operand that is cut to 64 bits is
always noticed. -/
theorem accepted_calls_end {α : Type} (ar : Arith α) :
    (∀ {A : Type} (q : Request α A A) (elem : ElemType) (widen : A → α) (c : Array α),
      (q.outline ar elem elem .f32 c.size).Addressable →
      (q.outline ar elem elem .f32 c.size).check = .ok () → q.shape.degenerate = false →
      let a := q.floatA elem widen
      let b := q.floatB elem widen
      let s := q.shape
      (q.outline ar elem elem .f32 c.size).InReach ∧
        (2 ≤ s.n → s.ldc * tileCols < Size.modulus) ∧
        (∀ team, Run.Ends (Reference.float ar team q a b) c) ∧
        (∀ bias, q.bias = some bias → ∀ team (c' : Array α), c'.size = c.size →
          Run.Ends (Reference.addBias ar team s bias) c') ∧
        ∀ (rows : Nat) (fused : Bool) (team : Work.Team), 0 < rows → rows < Size.modulus →
          (Run.Ends (Blocked.float ar team fused rows q a b) c ↔
            (s.n = 1 → s.m ≤ Size.wrap (s.ldc * tileCols)) ∧ s.Packable rows)) ∧
    (∀ {B : Type} (q : Request α Int8 B) (kind : IntKind B) (c : Array Int32),
      (q.outline ar .s8 kind.elem .s32 c.size).Addressable →
      (q.outline ar .s8 kind.elem .s32 c.size).checkQuantized = .ok () →
      q.shape.degenerate = false →
      let a := q.intA
      let b := q.intB kind
      let s := q.shape
      (q.outline ar .s8 kind.elem .s32 c.size).InReach ∧
        (2 ≤ s.n → s.ldc * tileCols < Size.modulus) ∧
        Offset.Reaches q.offset s.m s.n ∧
        (∀ team, Run.Ends (Reference.int ar team q a b) c) ∧
        ∀ (rows : Nat) (shift : Int32) (team : Work.Team), 0 < rows → rows < Size.modulus →
          (Run.Ends (Blocked.int ar team rows shift q a b) c ↔
            (s.n = 1 → s.m ≤ Size.wrap (s.ldc * tileCols)) ∧ s.Packable rows)) := by
  constructor
  · intro A q elem widen c hfit hcheck hwork a b s
    have haccepted := Outline.accepted_of_check hfit hcheck
    obtain ⟨hready, hbias⟩ :=
      Request.ready ar widen hfit hcheck (GemmShape.block_of_work hwork)
    have hlength : ∀ xs, q.bias = some xs → q.shape.m ≤ xs.size := fun xs hxs => (hbias xs hxs).1
    have hwide := haccepted.wide hwork rfl
    refine ⟨haccepted.inReach, hwide, ?_, ?_, ?_⟩
    · exact fun team => ⟨_, _, Reference.run_float ar hready hlength team⟩
    · intro bias hsome team c' hsize
      exact ⟨_, _, Reference.run_addBias ar (hsize ▸ hready.holds) (hlength bias hsome) team⟩
    · intro rows fused team hrows hword
      rw [Blocked.float_ends_iff ar hready hlength (GemmShape.steps_of_work hwork)
        haccepted.count_le hrows hword hwide fused team]
      exact and_congr_left' (haccepted.panelsFit_iff hwork rfl)
  · intro B q kind c hfit hcheck hwork a b s
    have haccepted := (Outline.accepted_of_checkQuantized hfit hcheck).1
    obtain ⟨hready, hoffset⟩ :=
      Request.readyQuantized ar hfit hcheck (GemmShape.block_of_work hwork)
    have hwide := haccepted.wide hwork rfl
    refine ⟨haccepted.inReach, hwide, hoffset, ?_, ?_⟩
    · exact fun team => ⟨_, _, Reference.run_int ar hready hoffset team⟩
    · intro rows shift team hrows hword
      rw [Blocked.int_ends_iff ar hready hoffset (GemmShape.steps_of_work hwork)
        haccepted.count_le hrows hword hwide shift team]
      exact and_congr_left' (haccepted.panelsFit_iff hwork rfl)

/-- A lone element of C with a leading dimension of which four columns wrap to nothing. -/
def loneElement : Request Single Single Single where
  shape := { GemmShape.tight .noTrans .noTrans 1 1 1 with ldc := 2 ^ 62 }
  a := #[⟨0x40000000⟩]
  b := #[⟨0x40400000⟩]
  alpha := .one
  beta := .zero

theorem loneElement_addressable :
    (loneElement.outline Single.arith .f32 .f32 .f32 1).Addressable := by
  constructor <;> decide

/-- The call is accepted and has work to do, and its tiles end in a fault all the same. -/
theorem loneElement_faults :
    (loneElement.outline Single.arith .f32 .f32 .f32 1).Addressable ∧
      (loneElement.outline Single.arith .f32 .f32 .f32 1).check = .ok () ∧
      loneElement.shape.degenerate = false ∧
      (Blocked.float Single.arith .serial true 16 loneElement (loneElement.floatA .f32 id)
        (loneElement.floatB .f32 id)).run #[.zero] = .error .emptyPanels #[.zero] :=
  ⟨loneElement_addressable, rfl, rfl, rfl⟩

/-- The reference kernel comes to its end on the same call. -/
theorem loneElement_ends :
    Run.Ends (Reference.float Single.arith .serial loneElement (loneElement.floatA .f32 id)
        (loneElement.floatB .f32 id)) #[.zero] ∧
      ¬ Run.Ends (Blocked.float Single.arith .serial true 16 loneElement
        (loneElement.floatA .f32 id) (loneElement.floatB .f32 id)) #[.zero] := by
  obtain ⟨-, -, hreference, -, htiles⟩ := (accepted_calls_end Single.arith).1 loneElement .f32 id
    #[.zero] loneElement_addressable rfl rfl
  refine ⟨hreference .serial, fun hends => ?_⟩
  exact absurd ((htiles 16 true .serial (by decide) (by decide)).mp hends).1 (by decide)

end JitGemm
