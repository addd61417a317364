import JitGemm.Gemm.Packing
import JitGemm.Proofs.Gemm.Block
import JitGemm.Tile.Key

/-!
# What packed operands hold

Packing reads the operand and nothing else. A packed panel is a table with one row per step, whose
entries are those of the operand, and zero past its edge. It is made in place: the buffer starts out
as zeros, the entries that the operand has are copied to where they belong, and what is left is the
padding.
-/

namespace JitGemm

-- ---------------------------------------------------------------------------
-- Buffers of a run
-- ---------------------------------------------------------------------------

namespace Run

variable {V γ : Type}

/-- The bytes of so many values are those of one object. -/
def BufferFits (length : Nat) : Prop := length * valueBytes ≤ Size.objectLimit

instance (length : Nat) : Decidable (BufferFits length) := inferInstanceAs (Decidable (_ ≤ _))

theorem BufferFits.word {length : Nat} (h : BufferFits length) : length < Size.modulus := by
  unfold BufferFits valueBytes Size.objectLimit at h
  unfold Size.modulus
  omega

theorem BufferFits.mono {length length' : Nat} (h : BufferFits length) (hle : length' ≤ length) :
    BufferFits length' :=
  Nat.le_trans (Nat.mul_le_mul_right _ hle) h

theorem zeros_wrap {length : Nat} (h : BufferFits (Size.wrap length)) (zero : V) :
    (zeros zero length : Run γ (Array V)) = pure (Array.replicate (Size.wrap length) zero) :=
  if_pos h

theorem zeros_eq {length : Nat} (h : BufferFits length) (zero : V) :
    (zeros zero length : Run γ (Array V)) = pure (Array.replicate length zero) := by
  have hwrap := Size.wrap_of_lt h.word
  rw [zeros_wrap (hwrap.symm ▸ h), hwrap]

theorem onBuffer_eq {buffer filled : Array V} {work : Run V Unit}
    (h : work.run buffer = .ok () filled) :
    (onBuffer buffer work : Run γ (Array V)) = pure filled := by
  rw [onBuffer, h]

theorem Ends.zeros {zero : V} {length : Nat} {c : Array γ}
    (h : (zeros zero length : Run γ (Array V)).Ends c) : BufferFits (Size.wrap length) := by
  obtain ⟨_, _, h⟩ := h
  simp only [Run.zeros] at h
  split at h
  · assumption
  · cases h

theorem Ends.onBuffer {buffer : Array V} {work : Run V Unit} {c : Array γ}
    (h : (onBuffer buffer work : Run γ (Array V)).Ends c) : work.Ends buffer := by
  obtain ⟨_, _, h⟩ := h
  rw [Run.onBuffer] at h
  split at h
  · exact ⟨_, _, ‹_›⟩
  · cases h

end Run

namespace Packing

-- ---------------------------------------------------------------------------
-- Tables
-- ---------------------------------------------------------------------------

section

variable {V : Type} (zero : V)

/-- A table of `steps` rows of `width` entries each, row after row. -/
def table (steps width : Nat) (g : Nat → Nat → V) : List V :=
  ((List.range steps).map fun p => (List.range width).map (g p)).flatten

theorem length_rows {steps width : Nat} {row : Nat → List V}
    (h : ∀ p < steps, (row p).length = width) :
    ((List.range steps).map row).flatten.length = steps * width := by
  induction steps with
  | zero => simp
  | succ steps ih =>
    have hrest := ih fun p hp => h p (Nat.lt_succ_of_lt hp)
    simp [List.range_succ, hrest, h steps (Nat.lt_succ_self _), Nat.succ_mul]

/-- Rows of one width, one after the other, keep their entries at multiples of the width. -/
theorem getElem?_rows {steps width p i : Nat} {row : Nat → List V}
    (h : ∀ p < steps, (row p).length = width) (hp : p < steps) (hi : i < width) :
    ((List.range steps).map row).flatten[p * width + i]? = (row p)[i]? := by
  induction steps with
  | zero => omega
  | succ steps ih =>
    have hbefore : ∀ p < steps, (row p).length = width := fun p hp => h p (Nat.lt_succ_of_lt hp)
    have hlen := length_rows hbefore
    rw [List.range_succ, List.map_append, List.flatten_append, List.map_singleton,
      List.flatten_singleton]
    by_cases hlast : p = steps
    · subst hlast
      rw [List.getElem?_append_right (by omega), hlen, Nat.add_sub_cancel_left]
    · have hrow : (p + 1) * width ≤ steps * width := Nat.mul_le_mul_right _ (by omega)
      rw [Nat.succ_mul] at hrow
      rw [List.getElem?_append_left (by omega), ih hbefore (by omega)]

theorem length_table (steps width : Nat) (g : Nat → Nat → V) :
    (table steps width g).length = steps * width :=
  length_rows fun _ _ => by simp

theorem getElem?_table {steps width p i : Nat} (hp : p < steps) (hi : i < width)
    (g : Nat → Nat → V) : (table steps width g)[p * width + i]? = some (g p i) := by
  rw [table, getElem?_rows (fun _ _ => by simp) hp hi]
  simp [hi]

theorem getD_table {steps width p i : Nat} (hp : p < steps) (hi : i < width) (g : Nat → Nat → V) :
    (table steps width g).toArray.getD (p * width + i) zero = g p i := by
  simp [Array.getD_eq_getD_getElem?, getElem?_table hp hi g]

def rowEntry (x : Operand V) (mr t p ii : Nat) : V :=
  if t * mr + ii < x.matrix.rows then x.value zero (t * mr + ii) p else zero

def columnEntry (x : Operand V) (j0 nb p jj : Nat) : V :=
  if jj < nb then x.value zero p (j0 + jj) else zero

def tiles (x : Operand V) (mr : Nat) : List (Array V) :=
  (List.range (Size.ceilDiv x.matrix.rows mr)).map fun t =>
    (table x.matrix.cols mr (rowEntry zero x mr t)).toArray

theorem length_tiles (x : Operand V) (mr : Nat) :
    (tiles zero x mr).length = Size.ceilDiv x.matrix.rows mr := by
  simp [tiles]

theorem getElem_tiles (x : Operand V) (mr t : Nat) (h : t < (tiles zero x mr).length) :
    (tiles zero x mr)[t] = (table x.matrix.cols mr (rowEntry zero x mr t)).toArray := by
  simp [tiles]

end

-- ---------------------------------------------------------------------------
-- Buffers on the way
-- ---------------------------------------------------------------------------

section

variable {V : Type} (zero : V)

/-- A buffer that is what it will be up to `b`, and zero from there on. -/
def settled (xs : Array V) (b : Nat) : Array V :=
  xs.mapIdx fun q v => if q < b then v else zero

variable {zero} {xs : Array V} {b : Nat}

@[simp] theorem size_settled : (settled zero xs b).size = xs.size := by
  simp [settled]

theorem settled_zero : settled zero xs 0 = Array.replicate xs.size zero := by
  apply Array.ext <;> simp [settled]

theorem settled_all : settled zero xs xs.size = xs := by
  apply Array.ext
  · simp
  · intro q _ hq
    simp [settled, hq]

theorem settled_copy {v : V} (h : xs[b]? = some v) :
    (settled zero xs b).setIfInBounds b v = settled zero xs (b + 1) := by
  obtain ⟨hb, rfl⟩ := Array.getElem?_eq_some_iff.mp h
  apply Array.ext
  · simp
  · intro q hq _
    have hqxs : q < xs.size := by simpa using hq
    by_cases hqb : b = q
    · subst hqb
      simp [settled]
    · have hiff : q < b ↔ q < b + 1 := by omega
      rw [Array.getElem_setIfInBounds_ne (by simpa using hqxs) hqb]
      simp [settled, hiff]

/-- Padding is settled from the start. -/
theorem settled_skip {count : Nat} (h : ∀ i < count, xs[b + i]? = some zero) :
    settled zero xs b = settled zero xs (b + count) := by
  apply Array.ext
  · simp
  · intro q hq _
    have hqxs : q < xs.size := by simpa using hq
    by_cases hbefore : q < b
    · have hbefore' : q < b + count := by omega
      simp [settled, hbefore, hbefore']
    · obtain ⟨i, rfl⟩ := Nat.exists_eq_add_of_le (Nat.le_of_not_lt hbefore)
      by_cases hi : i < count
      · have hzero : xs[b + i] = zero := (Array.getElem?_eq_some_iff.mp (h i hi)).2
        simp [settled, hi, hzero]
      · simp [settled, hi]

variable {piece : Panel} {steps start width lanes : Nat}

theorem run_copyLanes {entry : Nat → Run V V} {g : Nat → V} (hlanes : lanes ≤ width)
    (hpiece : start + width ≤ piece.length) (hentry : ∀ i < lanes, entry i = pure (g i))
    (hxs : ∀ i < width, xs[piece.start + (start + i)]? = some (if i < lanes then g i else zero)) :
    (copyLanes piece start lanes entry).run (settled zero xs (piece.start + start)) =
      .ok () (settled zero xs (piece.start + (start + width))) := by
  have hcopy : (copyLanes piece start lanes entry).run
      (settled zero xs (piece.start + (start + 0))) =
      .ok () (settled zero xs (piece.start + (start + lanes))) := by
    refine Run.run_forM_range (S := fun i => settled zero xs (piece.start + (start + i)))
      fun i hi => ?_
    have hv := hxs i (by omega)
    rw [if_pos hi] at hv
    have hsize := (Array.getElem?_eq_some_iff.mp hv).1
    rw [hentry i hi, pure_bind, Panel.cell, if_pos (by omega),
      pure_bind, Run.run_write (by simpa using hsize), settled_copy hv]
    rfl
  have hpadding : settled zero xs (piece.start + (start + lanes)) =
      settled zero xs (piece.start + (start + lanes) + (width - lanes)) := by
    refine settled_skip fun i hi => ?_
    have hzero := hxs (lanes + i) (by omega)
    rw [if_neg (by omega)] at hzero
    rw [← hzero]
    congr 1
    omega
  rw [Nat.add_zero] at hcopy
  rw [hcopy, hpadding]
  congr 2
  omega

/-- Copying all steps of a piece settles the piece. -/
theorem run_copySteps {entry : Nat → Nat → Run V V} {g : Nat → Nat → V} (hlanes : lanes ≤ width)
    (hpiece : piece.length = steps * width)
    (hentry : ∀ p < steps, ∀ i < lanes, entry p i = pure (g p i))
    (hxs : ∀ p < steps, ∀ i < width,
      xs[piece.start + (p * width + i)]? = some (if i < lanes then g p i else zero)) :
    (copySteps piece steps width lanes entry).run (settled zero xs piece.start) =
      .ok () (settled zero xs (piece.start + piece.length)) := by
  have hrun := Run.run_forM_range (S := fun p => settled zero xs (piece.start + p * width))
    (f := fun p => copyLanes piece (p * width) lanes (entry p)) (n := steps) fun p hp => by
      have hrow : (p + 1) * width ≤ steps * width := Nat.mul_le_mul_right _ hp
      rw [Nat.succ_mul] at hrow ⊢
      exact run_copyLanes hlanes (by omega) (hentry p hp) (hxs p hp)
  rw [Nat.zero_mul, Nat.add_zero, ← hpiece] at hrun
  exact hrun

end

-- ---------------------------------------------------------------------------
-- Whole buffers
-- ---------------------------------------------------------------------------

section

variable {V : Type} {zero : V} {x : Operand V} {mr nr : Nat}

def joined (tiles : List (Array V)) : Array V := (tiles.flatMap Array.toList).toArray

theorem joined_tiles (zero : V) (x : Operand V) (mr : Nat) : joined (tiles zero x mr) =
    ((List.range (Size.ceilDiv x.matrix.rows mr)).map fun t =>
      table x.matrix.cols mr (rowEntry zero x mr t)).flatten.toArray := by
  simp [joined, tiles, List.flatMap_def, Function.comp_def]

theorem size_joined (zero : V) (x : Operand V) (mr : Nat) : (joined (tiles zero x mr)).size =
    Size.ceilDiv x.matrix.rows mr * (x.matrix.cols * mr) := by
  rw [joined_tiles, List.size_toArray]
  exact length_rows fun t _ => length_table _ _ _

theorem getElem?_joined {t p i : Nat} (ht : t < Size.ceilDiv x.matrix.rows mr)
    (hp : p < x.matrix.cols) (hi : i < mr) :
    (joined (tiles zero x mr))[t * (x.matrix.cols * mr) + (p * mr + i)]? =
      some (rowEntry zero x mr t p i) := by
  have hplace : p * mr + i < x.matrix.cols * mr := by
    rw [Nat.mul_comm p]
    exact Nat.mul_add_lt_mul_of_lt_of_lt hp hi
  rw [joined_tiles, List.getElem?_toArray,
    getElem?_rows (fun t _ => length_table _ _ _) ht hplace, getElem?_table hp hi]

theorem run_fillTile (h : x.Defined) {t : Nat} (ht : t < Size.ceilDiv x.matrix.rows mr)
    {piece : Panel} (hstart : piece.start = t * (x.matrix.cols * mr))
    (hlength : piece.length = x.matrix.cols * mr) :
    (copySteps piece x.matrix.cols mr (min mr (x.matrix.rows - t * mr)) fun p i =>
        x.entry (t * mr + i) p).run (settled zero (joined (tiles zero x mr)) piece.start) =
      .ok () (settled zero (joined (tiles zero x mr)) (piece.start + piece.length)) := by
  refine run_copySteps (g := fun p i => x.value zero (t * mr + i) p) (Nat.min_le_left _ _) hlength
    (fun p hp i hi => h.entry_eq zero (by omega) hp) fun p hp i hi => ?_
  have hrow : t * mr + i < x.matrix.rows ↔ i < min mr (x.matrix.rows - t * mr) := by omega
  rw [hstart, getElem?_joined ht hp hi, rowEntry]
  simp only [hrow]

/-- A tile is as wide as it is meant to be where all of them are no more than a word. -/
theorem wrap_width (hmr : 0 < mr) (hrows : 0 < x.matrix.rows)
    (hword : Size.ceilDiv x.matrix.rows mr * (x.matrix.cols * mr) < Size.modulus) :
    Size.wrap (x.matrix.cols * mr) = x.matrix.cols * mr := by
  have hsome : 0 < Size.ceilDiv x.matrix.rows mr := (Size.lt_ceilDiv hmr).mpr (by omega)
  exact Size.wrap_of_lt (Nat.lt_of_le_of_lt (Nat.le_mul_of_pos_left _ hsome) hword)

theorem run_fillA (h : x.Defined) (hmr : 0 < mr) (hrows : 0 < x.matrix.rows)
    (hcols : 0 < x.matrix.cols)
    (hword : Size.ceilDiv x.matrix.rows mr * (x.matrix.cols * mr) < Size.modulus) :
    (fillA x mr).run
        (Array.replicate (Size.ceilDiv x.matrix.rows mr * (x.matrix.cols * mr)) zero) =
      .ok () (joined (tiles zero x mr)) := by
  have hwrap := wrap_width hmr hrows hword
  have hpos : 0 < x.matrix.cols * mr := Nat.mul_pos hcols hmr
  have hsize := size_joined zero x mr
  obtain ⟨width, hwidth⟩ : ∃ width, x.matrix.cols * mr = width := ⟨_, rfl⟩
  obtain ⟨count, hcount⟩ : ∃ count, Size.ceilDiv x.matrix.rows mr = count := ⟨_, rfl⟩
  rw [hwidth] at hwrap hpos
  rw [hcount, hwidth] at hsize ⊢
  have hend : settled zero (joined (tiles zero x mr)) (count * width) = joined (tiles zero x mr) :=
    hsize ▸ settled_all
  have hrun := Run.run_forM_range (n := count)
    (S := fun t => settled zero (joined (tiles zero x mr)) (t * width))
    (f := fun t => copySteps ⟨t * width, min width (count * width - t * width)⟩ x.matrix.cols mr
      (min mr (x.matrix.rows - t * mr)) fun p i => x.entry (t * mr + i) p) fun t ht => by
    have hnext : (t + 1) * width ≤ count * width := Nat.mul_le_mul_right _ ht
    rw [Nat.succ_mul] at hnext ⊢
    have hpiece : min width (count * width - t * width) = width := by omega
    rw [hpiece]
    exact run_fillTile h (hcount ▸ ht) (by rw [hwidth]) hwidth.symm
  rw [Nat.zero_mul, settled_zero, hsize, hend] at hrun
  rw [fillA, Run.run_bind_ok (EStateM.run_get _)]
  simp only [Array.size_replicate, hwidth, hwrap, if_neg (Nat.ne_of_gt hpos),
    Size.ceilDiv_mul hpos]
  exact hrun

theorem run_fillB (h : x.Defined) {j0 nb : Nat} (hj : j0 + nb ≤ x.matrix.cols)
    (hnb : nb ≤ nr) :
    (fillB x j0 nb nr).run (Array.replicate (x.matrix.rows * nr) zero) =
      .ok () (table x.matrix.rows nr (columnEntry zero x j0 nb)).toArray := by
  obtain ⟨panel, hpanel⟩ : ∃ panel, (table x.matrix.rows nr (columnEntry zero x j0 nb)).toArray =
      panel := ⟨_, rfl⟩
  have hsize : panel.size = x.matrix.rows * nr := by
    rw [← hpanel, List.size_toArray, length_table]
  have hrun : (copySteps ⟨0, x.matrix.rows * nr⟩ x.matrix.rows nr nb fun p j =>
      x.entry p (j0 + j)).run (settled zero panel 0) =
      .ok () (settled zero panel (0 + x.matrix.rows * nr)) := by
    refine run_copySteps (g := fun p j => x.value zero p (j0 + j)) hnb rfl
      (fun p hp j hj' => h.entry_eq zero hp (by omega)) fun p hp j hj' => ?_
    rw [← hpanel, Nat.zero_add, List.getElem?_toArray, getElem?_table hp hj']
    rfl
  rw [fillB, Run.run_bind_ok (EStateM.run_get _), Array.size_replicate, hpanel]
  rw [settled_zero, hsize, Nat.zero_add, ← hsize, settled_all] at hrun
  rw [← hsize]
  exact hrun

/-- A as its driver packs it. -/
theorem packA_eq {γ : Type} (h : x.Defined) (hmr : 0 < mr) (hrows : 0 < x.matrix.rows)
    (hcols : 0 < x.matrix.cols)
    (hfits : Run.BufferFits (Size.ceilDiv x.matrix.rows mr * x.matrix.cols * mr)) :
    (packA zero x mr : Run γ (Array V)) = pure (joined (tiles zero x mr)) := by
  rw [packA, Run.zeros_eq hfits, pure_bind]
  have hword := hfits.word
  rw [Nat.mul_assoc] at hword ⊢
  exact Run.onBuffer_eq (run_fillA h hmr hrows hcols hword)

theorem packB_eq {γ : Type} (h : x.Defined) {j0 nb : Nat} (hj : j0 + nb ≤ x.matrix.cols)
    (hnb : nb ≤ nr) (hfits : Run.BufferFits (x.matrix.rows * nr)) :
    (packB zero x j0 nb nr : Run γ (Array V)) =
      pure (table x.matrix.rows nr (columnEntry zero x j0 nb)).toArray := by
  rw [packB, Run.zeros_eq hfits, pure_bind]
  exact Run.onBuffer_eq (run_fillB h hj hnb)

theorem extract_joined {t : Nat} (ht : t < Size.ceilDiv x.matrix.rows mr) :
    (joined (tiles zero x mr)).extract (t * (x.matrix.cols * mr))
        (t * (x.matrix.cols * mr) + x.matrix.cols * mr) =
      (table x.matrix.cols mr (rowEntry zero x mr t)).toArray := by
  obtain ⟨width, hwidth⟩ : ∃ width, x.matrix.cols * mr = width := ⟨_, rfl⟩
  have hlength (t : Nat) : (table x.matrix.cols mr (rowEntry zero x mr t)).length = width :=
    hwidth ▸ length_table _ _ _
  have hnext : (t + 1) * width ≤ Size.ceilDiv x.matrix.rows mr * width := Nat.mul_le_mul_right _ ht
  have hsize := size_joined zero x mr
  rw [Nat.succ_mul] at hnext
  rw [hwidth] at hsize ⊢
  apply Array.ext_getElem?
  intro q
  by_cases hq : q < width
  · rw [Array.getElem?_extract, if_pos (by omega), joined_tiles, List.getElem?_toArray,
      getElem?_rows (fun t _ => hlength t) ht hq, List.getElem?_toArray]
  · rw [Array.getElem?_eq_none (by rw [Array.size_extract]; omega),
      Array.getElem?_eq_none (by rw [List.size_toArray, hlength]; omega)]

/-- Cutting takes the tiles apart again. -/
theorem cutTiles_eq {γ : Type} (hmr : 0 < mr) (hrows : 0 < x.matrix.rows)
    (hcols : 0 < x.matrix.cols)
    (hfits : Run.BufferFits (Size.ceilDiv x.matrix.rows mr * x.matrix.cols * mr)) :
    (cutTiles (joined (tiles zero x mr)) x.matrix.cols mr : Run γ (List (Array V))) =
      pure (tiles zero x mr) := by
  have hpos : 0 < x.matrix.cols * mr := Nat.mul_pos hcols hmr
  have hwrap := wrap_width hmr hrows (Nat.mul_assoc .. ▸ hfits.word)
  simp only [cutTiles, hwrap, if_neg (Nat.ne_of_gt hpos), size_joined, Size.ceilDiv_mul hpos]
  exact congrArg pure (List.map_congr_left fun t ht => extract_joined (List.mem_range.mp ht))

end

end Packing

-- ---------------------------------------------------------------------------
-- Calls that can be packed
-- ---------------------------------------------------------------------------

/-- Whether the operands packed for tiles of `rows` rows, and one such tile, are buffers of one
object each. Their lengths are counted in full, not in words. -/
structure GemmShape.Packable (s : GemmShape) (rows : Nat) : Prop where
  a : Run.BufferFits (Size.ceilDiv s.m rows * s.k * rows)
  b : Run.BufferFits (s.k * tileCols)
  tile : Run.BufferFits (rows * tileCols)

theorem TileKey.rows_le (key : TileKey) : key.rows ≤ 32 := by
  obtain ⟨_, isa, _, _⟩ := key
  cases isa <;> simp [rows, vecLen, Isa.vecLen, VecLen.lanes, VecLen.bytes, tileVecs]

/-- Every generated kernel can pack a call whose A is an object with 31 rows more, too. -/
theorem GemmShape.packable_of_spare {s : GemmShape} (h : Run.BufferFits ((s.m + 31) * s.k))
    (key : TileKey) : s.Packable key.rows := by
  have hpos := key.rows_pos
  have hle := key.rows_le
  have hrows : Size.ceilDiv s.m key.rows * key.rows ≤ s.m + 31 := by
    have hlast := Size.ceilDiv_mul_lt (n := s.m) hpos
    omega
  refine ⟨?_, ?_, ?_⟩
  · rw [Nat.mul_right_comm]
    exact h.mono (Nat.mul_le_mul_right _ hrows)
  · rw [Nat.mul_comm]
    exact h.mono (Nat.mul_le_mul_right _ (by simp only [tileCols]; omega))
  · simp only [Run.BufferFits, Run.valueBytes, Size.objectLimit, tileCols]
    omega

namespace GemmShape.Ready

variable {V γ : Type} {s : GemmShape} {a b : Operand V} {size rows : Nat} (h : s.Ready a b size)

include h

section

variable (hk : 0 < s.k) (hrows : 0 < rows)
  (hfits : Run.BufferFits (Size.ceilDiv s.m rows * s.k * rows)) (zero : V)

include hk hrows hfits

theorem packA_eq : (Packing.packA zero a rows : Run γ (Array V)) =
    pure (Packing.joined (Packing.tiles zero a rows)) :=
  Packing.packA_eq h.definedA hrows (h.rowsA ▸ h.holds.m) (h.colsA ▸ hk)
    (by rwa [h.rowsA, h.colsA])

theorem cutTiles_eq :
    (Packing.cutTiles (Packing.joined (Packing.tiles zero a rows)) s.k rows :
      Run γ (List (Array V))) = pure (Packing.tiles zero a rows) := by
  rw [← h.colsA]
  exact Packing.cutTiles_eq hrows (h.rowsA ▸ h.holds.m) (h.colsA ▸ hk)
    (by rwa [h.rowsA, h.colsA])

end

theorem packB_eq (hfits : Run.BufferFits (s.k * tileCols)) (zero : V) {jp : Nat}
    (hjp : jp * tileCols < s.n) :
    (Packing.packB zero b (jp * tileCols) (min tileCols (s.n - jp * tileCols)) tileCols :
        Run γ (Array V)) =
      pure (Packing.table s.k tileCols (Packing.columnEntry zero b (jp * tileCols)
        (min tileCols (s.n - jp * tileCols)))).toArray := by
  rw [Packing.packB_eq h.definedB (by rw [h.colsB]; omega) (Nat.min_le_left _ _)
    (by rwa [h.rowsB]), h.rowsB]

end GemmShape.Ready

end JitGemm
