import JitGemm.Proofs.Tile.Loop

/-!
# How a tile kernel writes the tile

The invariant of the write-back: every word before the current register holds what it is to hold,
every other byte of memory is as it was, and the sums of the words to come are still in their
registers. Words of the tile do not overlap, so a register reads the old values of its words.
-/

namespace JitGemm.Tile

open X86 (Machine Memory Span Apart)

-- ---------------------------------------------------------------------------
-- The words of a tile
-- ---------------------------------------------------------------------------

def Args.word (x : Args) (i j : Nat) : UInt64 :=
  x.tile + UInt64.ofNat (j * x.stride.toNat + 4 * i)

/-- Columns at least as far apart as they are high, which do not come back around to where they
began. -/
structure Args.Fits (x : Args) (k : TileKey) : Prop where
  column : 4 * k.rows ≤ x.stride.toNat
  tile : (tileCols - 1) * x.stride.toNat + 4 * k.rows ≤ 2 ^ 64

section

variable (ar : Arith UInt32) (t : OpTable) (k : TileKey)

def Args.biasOf (x : Args) (m : Memory) (i : Nat) : Option UInt32 :=
  if k.withBias then some (m.read32 (x.bias + UInt64.ofNat (4 * i))) else none

/-- What the word in row `i` and column `j` is to hold. -/
def Args.outcome (x : Args) (m : Memory) (i j : Nat) : UInt32 :=
  match k.kind with
  | .float => floatFinish ar t.fused k.betaZero x.alpha x.beta (x.biasOf k m i)
      (m.read32 (x.word i j)) (x.sum ar t k m x.steps.toNat i j)
  | .int => x.sum ar t k m x.steps.toNat i j

/-- The words before register `n` of column `c`. -/
def Before (c n i j : Nat) : Prop := j < c ∨ j = c ∧ i < n * t.len.lanes

/-- The state before register `n` of column `c` is written. -/
structure Writing (x : Args) (m : Memory) (low : UInt64) (c n : Nat) (v : Machine) : Prop where
  top : v.gpr .rsp = low
  stride : v.gpr .rbp = x.stride
  column : c < tileCols → v.gpr .r13 = x.word 0 c
  done : ∀ i < k.rows, ∀ j < tileCols, Before t c n i j →
    v.mem.read32 (x.word i j) = x.outcome ar t k m i j
  kept : ∀ y, (∀ i < k.rows, ∀ j < tileCols, Before t c n i j → ¬ Span (x.word i j) 4 y) →
    v.mem y = m y
  alpha : k.kind = .float → ∀ i, v.vec alphaReg i = x.alpha
  beta : k.kind = .float → k.betaZero = false → ∀ i, v.vec betaReg i = x.beta
  bias : k.kind = .float → k.withBias = true → ∀ w < tileVecs, ∀ i : Fin 16,
    v.vec (aReg w) i = m.read32 (x.bias + UInt64.ofNat (4 * (w * t.len.lanes + i)))
  acc : ∀ w < tileVecs, ∀ j < tileCols, ∀ i : Fin 16, i.val < t.len.lanes →
    ¬ Before t c n (w * t.len.lanes + i) j →
    v.vec (accReg w j) i = x.sum ar t k m x.steps.toNat (w * t.len.lanes + i) j

end

variable {ar : Arith UInt32} {t : OpTable} {k : TileKey} {x : Args}

theorem word_add (i j l : Nat) : x.word i j + UInt64.ofNat (4 * l) = x.word (i + l) j := by
  rw [Args.word, X86.offset_add, Nat.add_assoc, ← Nat.mul_add]
  rfl

/-- Where a word ends, the tile has not yet come around. -/
theorem word_end (hx : x.Fits k) {i j : Nat} (hi : i < k.rows) (hj : j < tileCols) :
    j * x.stride.toNat + 4 * i + 4 ≤ 2 ^ 64 := by
  have hcolumn : j * x.stride.toNat ≤ (tileCols - 1) * x.stride.toNat :=
    Nat.mul_le_mul_right _ (Nat.le_sub_one_of_lt hj)
  have htile := hx.tile
  omega

theorem word_apart_of_lt (hx : x.Fits k) {i j i' j' : Nat} (hi : i < k.rows) (hi' : i' < k.rows)
    (hj' : j' < tileCols) (h : j < j' ∨ j = j' ∧ i < i') :
    Apart (Span (x.word i j) 4) (Span (x.word i' j') 4) := by
  refine X86.span_apart x.tile ?_ (word_end hx hi' hj')
  rcases h with hlt | ⟨rfl, hlt⟩
  · have hcolumn : (j + 1) * x.stride.toNat ≤ j' * x.stride.toNat := Nat.mul_le_mul_right _ hlt
    have hheight := hx.column
    rw [Nat.succ_mul] at hcolumn
    omega
  · omega

theorem word_apart (hx : x.Fits k) {i j i' j' : Nat} (hi : i < k.rows) (hj : j < tileCols)
    (hi' : i' < k.rows) (hj' : j' < tileCols) (h : ¬ (j = j' ∧ i = i')) :
    Apart (Span (x.word i j) 4) (Span (x.word i' j') 4) := by
  by_cases hlt : j < j' ∨ j = j' ∧ i < i'
  · exact word_apart_of_lt hx hi hi' hj' hlt
  · exact (word_apart_of_lt hx hi' hi hj (by omega)).symm

-- ---------------------------------------------------------------------------
-- One register
-- ---------------------------------------------------------------------------

/-- What becomes of a lane on its way to memory, from the registers and the old value. -/
def finishLane (ar : Arith UInt32) (t : OpTable) (k : TileKey) (v : Machine) (w j : Nat)
    (old : UInt32) (i : Fin 16) : UInt32 :=
  match k.kind with
  | .float => floatFinish ar t.fused k.betaZero (v.vec alphaReg i) (v.vec betaReg i)
      (if k.withBias then some (v.vec (aReg w) i) else none) old (v.vec (accReg w j) i)
  | .int => v.vec (accReg w j) i

theorem writeRegister_effect (ar : Arith UInt32) (t : OpTable) (k : TileKey) {j w : Nat}
    (hj : j < tileCols) (hw : w < tileVecs) (v : Machine) :
    let u := runCalls ar t (writeRegister t k .x86 j w) v
    let base := v.gpr .r13 + UInt64.ofNat (4 * (w * t.len.lanes))
    u.mem = v.mem.writeWords base t.len.lanes (fun i =>
        finishLane ar t k v w j (v.lanesAt base (X86.laneOf i)) (X86.laneOf i)) ∧
      ∀ r, r ≠ tmpReg → r ≠ accReg w j → u.vec r = v.vec r := by
  intro u base
  have haddress : v.address (vecAddress t .r13 w) = base := address_vec v .r13 hw
  have htmp : accReg w j ≠ tmpReg := accReg_ne hw hj (by decide)
  have hbeta : betaReg ≠ accReg w j := (accReg_ne hw hj (by decide)).symm
  have hbeta' : betaReg ≠ tmpReg := by decide
  have ha : aReg w ≠ accReg w j := (accReg_ne hw hj (aReg_ge hw)).symm
  have hkept : ∀ r, r ≠ tmpReg → r ≠ accReg w j → u.vec r = v.vec r := by
    intro r hr hacc
    simp only [u]
    unfold writeRegister
    cases k.kind <;> cases k.withBias <;> cases k.betaZero <;>
      simp [runCalls, VecCall.effect, hr, hacc]
  refine ⟨?_, hkept⟩
  simp only [u]
  unfold writeRegister finishLane floatFinish
  cases k.kind with
  | int => simp [runCalls, VecCall.effect, haddress, Regs.x86]
  | float =>
    cases k.withBias <;> cases k.betaZero <;>
      simp [runCalls, VecCall.effect, haddress, htmp, hbeta, hbeta', ha, Regs.x86]

variable {m : Memory} {low : UInt64}

/-- Register `n` of column `c` holds the words that come next. -/
theorem before_succ {c n i j : Nat} : Before t c (n + 1) i j ↔
    Before t c n i j ∨ j = c ∧ ∃ l < t.len.lanes, i = n * t.len.lanes + l := by
  have hnext : (n + 1) * t.len.lanes = n * t.len.lanes + t.len.lanes := Nat.succ_mul _ _
  unfold Before
  rw [hnext]
  constructor
  · rintro (hj | ⟨hj, hi⟩)
    · exact .inl (.inl hj)
    · by_cases hlow : i < n * t.len.lanes
      · exact .inl (.inr ⟨hj, hlow⟩)
      · exact .inr ⟨hj, i - n * t.len.lanes, by omega, by omega⟩
  · rintro ((hj | ⟨hj, hi⟩) | ⟨hj, l, hl, rfl⟩)
    · exact .inl hj
    · exact .inr ⟨hj, by omega⟩
    · exact .inr ⟨hj, by omega⟩

theorem before_apart (hx : x.Fits k) (hlen : t.len = k.vecLen) {c n l i j : Nat}
    (hc : c < tileCols) (hn : n < tileVecs) (hl : l < t.len.lanes) (hi : i < k.rows)
    (hj : j < tileCols) (h : Before t c n i j) :
    Apart (Span (x.word i j) 4) (Span (x.word (n * t.len.lanes + l) c) 4) := by
  refine word_apart hx hi hj (row_lt hlen hn hl) hc ?_
  unfold Before at h
  omega

theorem span_register {n c : Nat} {y : UInt64}
    (h : Span (x.word (n * t.len.lanes) c) (4 * t.len.lanes) y) :
    ∃ l < t.len.lanes, Span (x.word (n * t.len.lanes + l) c) 4 y := by
  obtain ⟨l, hl, h⟩ := X86.span_words h
  exact ⟨l, hl, by rwa [word_add] at h⟩

/-- A lane of a register is what its word is to hold. -/
theorem finishLane_eq {c n : Nat} (hc : c < tileCols) (hn : n < tileVecs) {v : Machine}
    (h : Writing ar t k x m low c n v) {i : Fin 16} (hi : i.val < t.len.lanes) :
    finishLane ar t k v n c (m.read32 (x.word (n * t.len.lanes + i) c)) i =
      x.outcome ar t k m (n * t.len.lanes + i) c := by
  have hlater : ¬ Before t c n (n * t.len.lanes + i) c := by
    unfold Before
    omega
  unfold finishLane Args.outcome
  cases hkind : k.kind with
  | int => exact h.acc n hn c hc i hi hlater
  | float =>
    simp only [h.acc n hn c hc i hi hlater, h.alpha hkind, Args.biasOf]
    cases hbetaZero : k.betaZero <;> cases hbias : k.withBias <;>
      simp [floatFinish, h.beta hkind, h.bias hkind, hbetaZero, hbias, hn]

theorem writing_mem (hx : x.Fits k) (hlen : t.len = k.vecLen) {c n : Nat} (hc : c < tileCols)
    (hn : n < tileVecs) {v : Machine} (h : Writing ar t k x m low c n v) :
    (runCalls ar t (writeRegister t k .x86 c n) v).mem =
      v.mem.writeWords (x.word (n * t.len.lanes) c) t.len.lanes fun i =>
        x.outcome ar t k m (n * t.len.lanes + i) c := by
  have hbase : v.gpr .r13 + UInt64.ofNat (4 * (n * t.len.lanes)) =
      x.word (n * t.len.lanes) c := by
    rw [h.column hc, word_add, Nat.zero_add]
  rw [(writeRegister_effect ar t k hc hn v).1, hbase]
  refine X86.Memory.writeWords_congr fun i hi => ?_
  have hval : (X86.laneOf i).val = i :=
    Nat.mod_eq_of_lt (Nat.lt_of_lt_of_le hi (OpTable.lanes_le t.len))
  -- the words of this register are not among those already written
  have hold : v.lanesAt (x.word (n * t.len.lanes) c) (X86.laneOf i) =
      m.read32 (x.word (n * t.len.lanes + i) c) := by
    rw [Machine.lanesAt, hval, word_add]
    exact X86.Memory.read32_congr fun y hy => h.kept y fun i' hi' j hj hb hy' =>
      before_apart hx hlen hc hn hi hi' hj hb y hy' hy
  have hlane := finishLane_eq hc hn h (i := X86.laneOf i) (by rw [hval]; exact hi)
  rw [hval] at hlane
  rw [hold, hlane]

theorem writing_register (hx : x.Fits k) (hlen : t.len = k.vecLen) {c n : Nat} (hc : c < tileCols)
    (hn : n < tileVecs) {v : Machine} (h : Writing ar t k x m low c n v) :
    Writing ar t k x m low c (n + 1) (runCalls ar t (writeRegister t k .x86 c n) v) := by
  have hmem := writing_mem hx hlen hc hn h
  have hkept := (writeRegister_effect ar t k hc hn v).2
  have hgpr := runCalls_gpr ar t (writeRegister t k .x86 c n) v
  refine ⟨by rw [hgpr, h.top], by rw [hgpr, h.stride], by rw [hgpr]; exact h.column,
    fun i hi j hj hb => ?_, fun y hy => ?_, ?_, ?_, ?_, ?_⟩
  · rw [hmem]
    rcases before_succ.mp hb with hb | ⟨rfl, l, hl, rfl⟩
    · rw [X86.Memory.read32_writeWords_apart, h.done i hi j hj hb]
      intro y hy hy'
      obtain ⟨l, hl, hy⟩ := span_register hy
      exact before_apart hx hlen hc hn hl hi hj hb y hy' hy
    · rw [← word_add, X86.Memory.read32_writeWords hl]
      exact Nat.le_trans (Nat.mul_le_mul_left 4 (OpTable.lanes_le t.len)) (by decide)
  · rw [hmem, X86.Memory.writeWords_outside]
    · exact h.kept y fun i hi j hj hb => hy i hi j hj (before_succ.mpr (.inl hb))
    · intro hspan
      obtain ⟨l, hl, hspan⟩ := span_register hspan
      exact hy _ (row_lt hlen hn hl) c hc (before_succ.mpr (.inr ⟨rfl, l, hl, rfl⟩)) hspan
  · intro hkind i
    rw [hkept _ (by decide) (accReg_ne hn hc (by decide)).symm, h.alpha hkind]
  · intro hkind hbetaZero i
    rw [hkept _ (by decide) (accReg_ne hn hc (by decide)).symm, h.beta hkind hbetaZero]
  · intro hkind hbias w hw i
    rw [hkept _ (aReg_ne hw (by decide)) (accReg_ne hn hc (aReg_ge hw)).symm,
      h.bias hkind hbias w hw]
  · intro w hw j hj i hi hb
    rw [before_succ, not_or] at hb
    have hne : accReg w j ≠ accReg n c := by
      intro heq
      obtain ⟨rfl, rfl⟩ := (accReg_inj hw hj hn hc).mp heq
      exact hb.2 ⟨rfl, i, hi, rfl⟩
    rw [hkept _ (accReg_ne hw hj (by decide)) hne, h.acc w hw j hj i hi hb.1]

-- ---------------------------------------------------------------------------
-- The whole tile
-- ---------------------------------------------------------------------------

/-- The registers of a column hold all of its rows. -/
theorem before_column (hlen : t.len = k.vecLen) {c i j : Nat} (hi : i < k.rows) :
    Before t (c + 1) 0 i j ↔ Before t c tileVecs i j := by
  rw [rows_eq hlen] at hi
  unfold Before
  omega

theorem nextOps_effect {c : Nat} (v : Machine) :
    let u := runOps (nextOps c) v
    u.mem = v.mem ∧ u.vec = v.vec ∧ (∀ r, r ≠ .r13 → u.gpr r = v.gpr r) ∧
      (c + 1 < tileCols → u.gpr .r13 = v.gpr .r13 + v.gpr .rbp) := by
  unfold nextOps
  split
  · refine ⟨rfl, rfl, fun r hr => ?_, fun _ => rfl⟩
    simp [runOps, ScalarOp.effect, hr]
  · rename_i hlast
    exact ⟨rfl, rfl, fun _ _ => rfl, fun h => absurd h hlast⟩

theorem word_next (c : Nat) : x.word 0 c + x.stride = x.word 0 (c + 1) :=
  calc x.word 0 c + x.stride
    _ = x.word 0 c + UInt64.ofNat x.stride.toNat := by rw [UInt64.ofNat_toNat]
    _ = x.word 0 (c + 1) := by
      simp only [Args.word, X86.offset_add, Nat.succ_mul, Nat.mul_zero, Nat.add_zero]

theorem writing_column (hx : x.Fits k) (hlen : t.len = k.vecLen) {c : Nat} (hc : c < tileCols)
    {v : Machine} (h : Writing ar t k x m low c 0 v) :
    Writing ar t k x m low (c + 1) 0 (columnEffect ar t k c v) := by
  have hregisters : Writing ar t k x m low c tileVecs
      (runCalls ar t (vecRange.flatMap (writeRegister t k .x86 c)) v) := by
    rw [runCalls_flatMap]
    exact foldl_range (P := Writing ar t k x m low c)
      (fun n hn u hu => writing_register hx hlen hc hn hu) h
  obtain ⟨hmem, hvec, hgpr, hcolumn⟩ := nextOps_effect (c := c)
    (runCalls ar t (vecRange.flatMap (writeRegister t k .x86 c)) v)
  obtain ⟨htop, hstride, hthis, hdone, hkept, halpha, hbeta, hbias, hacc⟩ := hregisters
  unfold columnEffect
  refine ⟨by rw [hgpr _ (by decide), htop], by rw [hgpr _ (by decide), hstride], fun hnext => ?_,
    fun i hi j hj hb => ?_, fun y hy => ?_, by rwa [hvec], by rwa [hvec], by rwa [hvec], ?_⟩
  · rw [hcolumn hnext, hthis hc, hstride, word_next]
  · rw [hmem]
    exact hdone i hi j hj ((before_column hlen hi).mp hb)
  · rw [hmem]
    exact hkept y fun i hi j hj hb => hy i hi j hj ((before_column hlen hi).mpr hb)
  · intro w hw j hj i hi hb
    rw [hvec]
    exact hacc w hw j hj i hi fun hb' => hb ((before_column hlen (row_lt hlen hw hi)).mpr hb')

theorem biasCalls_loaded (ar : Arith UInt32) (t : OpTable) (v : Machine) (hkind : k.kind = .float)
    (hbias : k.withBias = true) :
    Loaded t .r12 v tileVecs (runCalls ar t (biasCalls t k) v) := by
  simp only [biasCalls, hkind, hbias, and_self, ↓reduceIte]
  exact loaded_calls (fun _ _ => rfl) v

/-- Before the write-back the bias is loaded, and the column pointer stands at the tile. -/
theorem writing_start {v : Machine} (h : Looping ar t k x m low x.steps.toNat v) :
    Writing ar t k x m low 0 0 (runCalls ar t (biasCalls t k) (runOps [.mov .r13 .rbx] v)) := by
  let v' := runOps [.mov .r13 .rbx] v
  have hgpr : ∀ r, r ≠ .r13 → v'.gpr r = v.gpr r := fun r hr => by
    simp [v', runOps, ScalarOp.effect, hr]
  have hpointer : v'.gpr .r13 = v.gpr .rbx := by simp [v', runOps, ScalarOp.effect]
  have hnone : ∀ i j, ¬ Before t 0 0 i j := by
    unfold Before
    omega
  have hbias : (runCalls ar t (biasCalls t k) v').mem = v.mem ∧
      (runCalls ar t (biasCalls t k) v').gpr = v'.gpr ∧
      (∀ r, (∀ w < tileVecs, r ≠ aReg w) → (runCalls ar t (biasCalls t k) v').vec r = v.vec r) := by
    by_cases hloads : k.kind = .float ∧ k.withBias = true
    · have hl := biasCalls_loaded ar t v' hloads.1 hloads.2
      exact ⟨hl.mem, hl.gpr, hl.others⟩
    · rw [show biasCalls t k = [] from if_neg hloads]
      exact ⟨rfl, rfl, fun _ _ => rfl⟩
  obtain ⟨hmem, hgpr', hothers⟩ := hbias
  refine ⟨?_, ?_, fun _ => ?_, fun i _ j _ hb => absurd hb (hnone i j), fun y _ => ?_, ?_, ?_, ?_,
    fun w hw j hj i hi _ => ?_⟩
  · rw [hgpr', hgpr _ (by decide), h.top]
  · rw [hgpr', hgpr _ (by decide), h.stride]
  · rw [hgpr', hpointer, h.tile]
    simp [Args.word]
  · rw [hmem, h.mem]
  · intro hkind i
    rw [hothers _ fun w hw => (aReg_ne hw (by decide)).symm, h.alpha hkind]
  · intro hkind hbetaZero i
    rw [hothers _ fun w hw => (aReg_ne hw (by decide)).symm, h.beta hkind hbetaZero]
  · intro hkind hwith w hw i
    have hl := biasCalls_loaded ar t v' hkind hwith
    have hmem' : v'.mem = m := h.mem
    rw [hl.lanes w hw, hmem', hgpr _ (by decide), h.bias hwith]
  · rw [hothers _ fun q hq => accReg_ne hw hj (aReg_ge hq), h.acc w hw j hj i hi]

/-- The write-back fills the tile and leaves the rest of memory alone. -/
theorem writeBack_fills (hx : x.Fits k) (hlen : t.len = k.vecLen) {v : Machine}
    (h : Looping ar t k x m low x.steps.toNat v) :
    let u := writeBackEffect ar t k v
    u.gpr .rsp = low ∧
      (∀ i < k.rows, ∀ j < tileCols, u.mem.read32 (x.word i j) = x.outcome ar t k m i j) ∧
      ∀ y, (∀ i < k.rows, ∀ j < tileCols, ¬ Span (x.word i j) 4 y) → u.mem y = m y := by
  intro u
  have hall : Writing ar t k x m low tileCols 0 u :=
    foldl_range (P := fun c => Writing ar t k x m low c 0)
      (fun c hc u hu => writing_column hx hlen hc hu) (writing_start h)
  refine ⟨hall.top, fun i hi j hj => hall.done i hi j hj (.inl hj), fun y hy => ?_⟩
  exact hall.kept y fun i hi j hj _ => hy i hi j hj

end JitGemm.Tile
