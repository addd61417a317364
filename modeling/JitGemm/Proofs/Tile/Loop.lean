import Mathlib.Data.Nat.Init
import JitGemm.Proofs.Tile.Steps

/-!
# The loop of a tile kernel

The invariant of the loop: after so many steps the accumulators hold the sums over these steps, the
two panel pointers stand behind them, and the arguments for the write-back are in their registers.
The entry establishes it for no step, and one step takes it one further.
-/

namespace JitGemm.Tile

open X86 (Machine Memory)

structure Args where
  steps : UInt64
  a : UInt64
  b : UInt64
  tile : UInt64
  stride : UInt64
  alpha : UInt32
  beta : UInt32
  bias : UInt64

def Args.read (m : Memory) (p : UInt64) : Args where
  steps := m.read64 p
  a := m.read64 (p + 8)
  b := m.read64 (p + 16)
  tile := m.read64 (p + 24)
  stride := m.read64 (p + 32)
  alpha := m.read32 (p + 40)
  beta := m.read32 (p + 44)
  bias := m.read64 (p + 48)

def panel (m : Memory) (a : UInt64) (n : Nat) : Array UInt32 :=
  Array.ofFn fun q : Fin n => m.read32 (a + UInt64.ofNat (4 * q))

theorem panel_getD {m : Memory} {a : UInt64} {n q : Nat} (h : q < n) :
    (panel m a n).getD q 0 = m.read32 (a + UInt64.ofNat (4 * q)) := by
  simp [panel, Array.getD, h]

section

variable (ar : Arith UInt32) (t : OpTable) (k : TileKey)

/-- The sum of the first `p` steps in row `i` and column `j`. -/
def Args.sum (x : Args) (m : Memory) (p i j : Nat) : UInt32 :=
  partialSum ar t k (panel m x.a (x.steps.toNat * k.rows)) (panel m x.b (x.steps.toNat * tileCols))
    p i j

/-- The state after `p` steps, with the stack pointer at `low`. -/
structure Looping (x : Args) (m : Memory) (low : UInt64) (p : Nat) (v : Machine) : Prop where
  mem : v.mem = m
  top : v.gpr .rsp = low
  a : v.gpr .r9 = x.a + UInt64.ofNat (4 * (p * k.rows))
  b : v.gpr .r10 = x.b + UInt64.ofNat (4 * (p * tileCols))
  tile : v.gpr .rbx = x.tile
  stride : v.gpr .rbp = x.stride
  bias : k.withBias = true → v.gpr .r12 = x.bias
  alpha : k.kind = .float → ∀ i, v.vec alphaReg i = x.alpha
  beta : k.kind = .float → k.betaZero = false → ∀ i, v.vec betaReg i = x.beta
  acc : ∀ w < tileVecs, ∀ j < tileCols, ∀ i : Fin 16, i.val < t.len.lanes →
    v.vec (accReg w j) i = x.sum ar t k m p (w * t.len.lanes + i) j

end

variable {ar : Arith UInt32} {t : OpTable} {k : TileKey}

-- ---------------------------------------------------------------------------
-- Entry
-- ---------------------------------------------------------------------------

/-- Loads past one register that none of them writes. -/
theorem runOps_loads (args : Gpr) {l : List (Gpr × Nat)} (hargs : ∀ e ∈ l, e.1 ≠ args)
    (hnodup : (l.map Prod.fst).Nodup) (hsmall : ∀ e ∈ l, e.2 < 2 ^ 31) (v : Machine) :
    let u := runOps (l.map fun e => .load e.1 (.past args (Int32.ofNat e.2))) v
    u.mem = v.mem ∧ u.vec = v.vec ∧
      (∀ e ∈ l, u.gpr e.1 = v.mem.read64 (v.gpr args + UInt64.ofNat e.2)) ∧
      ∀ r, r ∉ l.map Prod.fst → u.gpr r = v.gpr r := by
  induction l generalizing v with
  | nil => exact ⟨rfl, rfl, fun _ he => absurd he List.not_mem_nil, fun _ _ => rfl⟩
  | cons e l ih =>
    have haddress := v.address_past args (hsmall e List.mem_cons_self)
    rw [List.map_cons, List.nodup_cons] at hnodup
    let w := v.mem.read64 (v.gpr args + UInt64.ofNat e.2)
    obtain ⟨hmem, hvec, hloaded, hothers⟩ := ih (fun e he => hargs e (List.mem_cons_of_mem _ he))
      hnodup.2 (fun e he => hsmall e (List.mem_cons_of_mem _ he)) (v.setGpr e.1 w)
    have hrun : runOps ((e :: l).map fun e => .load e.1 (.past args (Int32.ofNat e.2))) v =
        runOps (l.map fun e => .load e.1 (.past args (Int32.ofNat e.2))) (v.setGpr e.1 w) := by
      simp only [runOps, List.map_cons, List.foldl_cons, ScalarOp.effect, haddress, w]
    have hkept : (v.setGpr e.1 w).gpr args = v.gpr args := by
      simp [(hargs e List.mem_cons_self).symm]
    rw [hrun]
    refine ⟨hmem, hvec, fun f hf => ?_, fun r hr => ?_⟩
    · rcases List.mem_cons.mp hf with rfl | hf
      · rw [hothers _ hnodup.1]
        simp [w]
      · rw [hloaded f hf, hkept]
        rfl
    · rw [List.map_cons, List.mem_cons, not_or] at hr
      rw [hothers r hr.2]
      simp [hr.1]

/-- What the entry loads from where in the argument block. -/
def loaded (k : TileKey) : List (Gpr × Nat) :=
  [(.r8, 0), (.r9, 8), (.r10, 16), (.rbx, 24), (.rbp, 32)] ++
    if k.withBias then [(.r12, 48)] else []

theorem entryOps_eq (args : Gpr) : entryOps k args =
    (loaded k).map fun e => .load e.1 (.past args (Int32.ofNat e.2)) := by
  unfold entryOps loaded
  split <;> rfl

theorem constantCalls_effect (ar : Arith UInt32) (t : OpTable) (k : TileKey) (args : Gpr)
    (v : Machine) :
    let u := runCalls ar t (constantCalls k args) v
    u.mem = v.mem ∧
      (k.kind = .float → ∀ i, u.vec alphaReg i = v.mem.read32 (v.gpr args + 40)) ∧
      (k.kind = .float → k.betaZero = false →
        ∀ i, u.vec betaReg i = v.mem.read32 (v.gpr args + 44)) := by
  have halpha : v.address (.past args alphaAt) = v.gpr args + 40 :=
    v.address_past args (n := 40) (by decide)
  have hbeta : ∀ lanes, (v.set alphaReg lanes).address (.past args betaAt) = v.gpr args + 44 :=
    fun lanes => (v.set alphaReg lanes).address_past args (n := 44) (by decide)
  have hne : alphaReg ≠ betaReg := by decide
  unfold constantCalls
  cases k.kind with
  | int => exact ⟨rfl, nofun, nofun⟩
  | float =>
    cases k.betaZero with
    | true =>
      refine ⟨rfl, fun _ i => ?_, nofun⟩
      simp [runCalls, VecCall.effect, halpha]
    | false =>
      refine ⟨rfl, fun _ i => ?_, fun _ _ i => ?_⟩
      · simp [runCalls, VecCall.effect, halpha, hne]
      · simp [runCalls, VecCall.effect, hbeta]

theorem entry_looping (t : OpTable) (k : TileKey) (hzero : ar.zero = 0) {args : Gpr}
    (hargs : args = .rdi ∨ args = .rcx) (v : Machine) :
    let u := entryEffect ar t k args v
    let x := Args.read v.mem (v.gpr args)
    Looping ar t k x v.mem (v.gpr .rsp) 0 u ∧ u.gpr .r8 = x.steps := by
  intro u x
  -- no load writes the register of the argument, so all of them go by one pointer
  have hdistinct : (∀ e ∈ loaded k, e.1 ≠ args) ∧ ((loaded k).map Prod.fst).Nodup ∧
      (∀ e ∈ loaded k, e.2 < 2 ^ 31) ∧ Gpr.rsp ∉ (loaded k).map Prod.fst ∧
      args ∉ (loaded k).map Prod.fst := by
    unfold loaded
    rcases hargs with rfl | rfl <;> cases k.withBias <;> decide
  obtain ⟨hne, hnodup, hsmall, hrsp, hself⟩ := hdistinct
  obtain ⟨hmem, hvec, hloaded, hothers⟩ := runOps_loads args hne hnodup hsmall v
  rw [← entryOps_eq] at hmem hvec hloaded hothers
  obtain ⟨hmem', halpha, hbeta⟩ :=
    constantCalls_effect ar t k args (runOps (entryOps k args) v)
  rw [hmem, hothers args hself] at halpha hbeta
  obtain ⟨hmem'', hzeros⟩ := runCalls_zero ar t accRegs
    (runCalls ar t (constantCalls k args) (runOps (entryOps k args) v))
  rw [← zeroCalls_eq] at hmem'' hzeros
  have hgpr : u.gpr = (runOps (entryOps k args) v).gpr :=
    (runCalls_gpr ar t _ _).trans (runCalls_gpr ar t _ _)
  have hreg : ∀ r n, (r, n) ∈ loaded k → u.gpr r = v.mem.read64 (v.gpr args + UInt64.ofNat n) :=
    fun r n h => by rw [hgpr, hloaded (r, n) h]
  refine ⟨⟨hmem''.trans (hmem'.trans hmem), ?_, ?_, ?_, ?_, ?_, ?_, ?_, ?_, ?_⟩, ?_⟩
  · rw [hgpr, hothers _ hrsp]
  · rw [hreg .r9 8 (by simp [loaded])]
    simp [x, Args.read]
  · rw [hreg .r10 16 (by simp [loaded])]
    simp [x, Args.read]
  · exact hreg .rbx 24 (by simp [loaded])
  · exact hreg .rbp 32 (by simp [loaded])
  · intro hbias
    exact hreg .r12 48 (by simp [loaded, hbias])
  · intro hkind i
    rw [show u.vec alphaReg = _ from hzeros _, if_neg (not_mem_accRegs (by decide)), halpha hkind]
    rfl
  · intro hkind hbetaZero i
    rw [show u.vec betaReg = _ from hzeros _, if_neg (not_mem_accRegs (by decide)),
      hbeta hkind hbetaZero]
    rfl
  · intro w hw j hj i _
    rw [show u.vec (accReg w j) = _ from hzeros _, if_pos (accReg_mem hw hj), Args.sum,
      partialSum_zero hzero]
  · rw [hreg .r8 0 (by simp [loaded])]
    simp [x, Args.read]

-- ---------------------------------------------------------------------------
-- One step
-- ---------------------------------------------------------------------------

theorem bytes_eq (len : VecLen) : len.bytes = 4 * len.lanes := by cases len <;> rfl

theorem address_vec (s : Machine) (base : Gpr) {w : Nat} (hw : w < tileVecs) :
    s.address (vecAddress t base w) = s.gpr base + UInt64.ofNat (4 * (w * t.len.lanes)) := by
  have hlanes := OpTable.lanes_le t.len
  have hsmall : w * t.len.bytes < 2 ^ 31 := by
    have hmul := Nat.mul_le_mul (Nat.le_of_lt hw) (Nat.mul_le_mul_left 4 hlanes)
    rw [← bytes_eq] at hmul
    exact Nat.lt_of_le_of_lt hmul (by decide)
  rw [vecAddress, s.address_past base hsmall, bytes_eq, Nat.mul_left_comm]

/-- What loading the first `n` registers of a column from a pointer on does. -/
structure Loaded (t : OpTable) (base : Gpr) (v : Machine) (n : Nat) (u : Machine) : Prop where
  mem : u.mem = v.mem
  gpr : u.gpr = v.gpr
  lanes : ∀ w < n, ∀ i : Fin 16,
    u.vec (aReg w) i = v.mem.read32 (v.gpr base + UInt64.ofNat (4 * (w * t.len.lanes + i)))
  others : ∀ r, (∀ w < tileVecs, r ≠ aReg w) → u.vec r = v.vec r

theorem aReg_inj {v w : Nat} (hv : v < tileVecs) (hw : w < tileVecs) (h : aReg v = aReg w) :
    v = w := by
  have hnum := congrArg (fun r => r.num.toNat) h
  simp only [aReg_num hv, aReg_num hw] at hnum
  omega

theorem loaded_calls {base : Gpr} {call : Nat → VecCall}
    (hcall : ∀ w v, (call w).effect ar t.fused t.len.lanes v =
      v.set (aReg w) (v.lanesAt (v.address (vecAddress t base w)))) (v : Machine) :
    Loaded t base v tileVecs (runCalls ar t (vecRange.map call) v) := by
  rw [runCalls_map]
  refine foldl_range (P := Loaded t base v) (fun n hn u h => ?_)
    ⟨rfl, rfl, fun _ hw => absurd hw (Nat.not_lt_zero _), fun _ _ => rfl⟩
  rw [hcall]
  refine ⟨h.mem, h.gpr, fun w hw i => ?_, fun r hr => ?_⟩
  · by_cases hwn : w = n
    · subst hwn
      rw [Machine.set_vec, if_pos rfl, address_vec u base hn, Machine.lanesAt, h.mem, h.gpr,
        X86.offset_add, Nat.mul_add]
    · have hlt : w < n := by omega
      have hne : aReg w ≠ aReg n := fun heq => hwn (aReg_inj (Nat.lt_trans hlt hn) hn heq)
      rw [Machine.set_vec, if_neg hne, h.lanes w hlt]
  · rw [Machine.set_vec, if_neg (hr n hn), h.others r hr]

/-- What the first `n` columns of a step do. -/
structure Multiplied (ar : Arith UInt32) (t : OpTable) (k : TileKey) (v : Machine) (n : Nat)
    (u : Machine) : Prop where
  mem : u.mem = v.mem
  gpr : u.gpr = v.gpr
  acc : ∀ w < tileVecs, ∀ j < tileCols, ∀ i, u.vec (accReg w j) i =
    if j < n then combine ar t k (v.vec (aReg w) i)
      (v.mem.read32 (v.gpr .r10 + UInt64.ofNat (4 * j))) (v.vec (accReg w j) i)
    else v.vec (accReg w j) i
  others : ∀ r, r ≠ bReg → r ≠ tmpReg → r ∉ accRegs → u.vec r = v.vec r

theorem multiplied_columns (ar : Arith UInt32) (t : OpTable) (k : TileKey) (v : Machine) :
    Multiplied ar t k v tileCols (runCalls ar t (colRange.flatMap (stepColumn k .x86)) v) := by
  rw [runCalls_flatMap]
  refine foldl_range (P := Multiplied ar t k v) (fun n hn u h => ?_)
    ⟨rfl, rfl, fun w _ j _ i => by simp, fun _ _ _ _ => rfl⟩
  obtain ⟨hmem, hacc, hothers⟩ := column_added ar t k hn u
  have ha : ∀ w < tileVecs, u.vec (aReg w) = v.vec (aReg w) := fun w hw =>
    h.others _ (aReg_ne hw (by decide)) (aReg_ne hw (by decide)) (not_mem_accRegs (aReg_ge hw))
  refine ⟨hmem.trans h.mem, (runCalls_gpr ar t _ u).trans h.gpr, fun w hw j hj i => ?_,
    fun r hb htmp hr => ?_⟩
  · by_cases hjn : j = n
    · subst hjn
      rw [hacc w hw i, ha w hw, h.mem, h.gpr, h.acc w hw j hj, if_neg (Nat.lt_irrefl j),
        if_pos (Nat.lt_succ_self j)]
    · -- the other columns keep their sums
      have hlt : j < n + 1 ↔ j < n := by omega
      have hne : ∀ q < tileVecs, accReg w j ≠ accReg q n := fun q hq heq =>
        hjn ((accReg_inj hw hj hq hn).mp heq).2
      rw [hothers _ (accReg_ne hw hj (by decide)) (accReg_ne hw hj (by decide)) hne,
        h.acc w hw j hj]
      simp only [hlt]
  · rw [hothers r hb htmp fun w hw heq => hr (heq ▸ accReg_mem hw hn), h.others r hb htmp hr]

theorem moveOps_effect (v : Machine) :
    let u := runOps (moveOps t) v
    u.mem = v.mem ∧ u.vec = v.vec ∧
      u.gpr .r9 = v.gpr .r9 + UInt64.ofNat (t.len.bytes * tileVecs) ∧
      u.gpr .r10 = v.gpr .r10 + UInt64.ofNat (tileCols * 4) ∧
      ∀ r, r ≠ .r9 → r ≠ .r10 → u.gpr r = v.gpr r := by
  refine ⟨rfl, rfl, rfl, rfl, fun r ha hb => ?_⟩
  simp [runOps, moveOps, ScalarOp.effect, ha, hb]

theorem loadCalls_loaded (ar : Arith UInt32) (t : OpTable) (k : TileKey) (v : Machine) :
    Loaded t .r9 v tileVecs (runCalls ar t (loadCalls t k) v) := by
  unfold loadCalls
  refine loaded_calls (fun w v => ?_) v
  cases k.kind <;> rfl

theorem rows_eq (hlen : t.len = k.vecLen) : k.rows = tileVecs * t.len.lanes := by
  rw [hlen, Nat.mul_comm]
  rfl

theorem row_lt (hlen : t.len = k.vecLen) {w i : Nat} (hw : w < tileVecs) (hi : i < t.len.lanes) :
    w * t.len.lanes + i < k.rows := by
  rw [rows_eq hlen, Nat.mul_comm w]
  exact Nat.mul_add_lt_mul_of_lt_of_lt hw hi

theorem panel_lt {p steps n i : Nat} (hp : p < steps) (hi : i < n) : p * n + i < steps * n := by
  rw [Nat.mul_comm p]
  exact Nat.mul_add_lt_mul_of_lt_of_lt hp hi

theorem step_looping (hzero : ar.zero = 0) (hlen : t.len = k.vecLen) {x : Args} {m : Memory}
    {low : UInt64} {p : Nat} (hp : p < x.steps.toNat) {v : Machine}
    (h : Looping ar t k x m low p v) :
    let u := stepEffect ar t k v
    Looping ar t k x m low (p + 1) u ∧ u.gpr .r8 = v.gpr .r8 := by
  intro u
  obtain ⟨hmem, hvec, ha, hb, hothers⟩ := moveOps_effect (t := t)
    (runCalls ar t (colRange.flatMap (stepColumn k .x86)) (runCalls ar t (loadCalls t k) v))
  have hl := loadCalls_loaded ar t k v
  have hm := multiplied_columns ar t k (runCalls ar t (loadCalls t k) v)
  have hgpr : ∀ r, r ≠ .r9 → r ≠ .r10 → u.gpr r = v.gpr r := fun r hr hr' => by
    rw [show u.gpr r = _ from hothers r hr hr', hm.gpr, hl.gpr]
  have hkept : ∀ r, 11 ≤ r.num.toNat → r ≠ tmpReg → u.vec r = v.vec r := fun r hr htmp => by
    have hneb : r ≠ bReg := by
      rintro rfl
      exact absurd hr (by decide)
    rw [show u.vec r = _ from congrFun hvec r,
      hm.others r hneb htmp (not_mem_accRegs (Nat.le_trans (by decide) hr)),
      hl.others r fun w hw => (aReg_ne hw (Nat.le_trans (by decide) hr)).symm]
  refine ⟨⟨hmem.trans (hm.mem.trans (hl.mem.trans h.mem)), ?_, ?_, ?_, ?_, ?_, ?_, ?_, ?_, ?_⟩, ?_⟩
  · rw [hgpr _ (by decide) (by decide), h.top]
  · rw [show u.gpr .r9 = _ from ha, hm.gpr, hl.gpr, h.a, X86.offset_add, bytes_eq,
      rows_eq hlen, Nat.mul_comm tileVecs, Nat.add_mul, Nat.one_mul, Nat.mul_assoc 4, ← Nat.mul_add]
  · rw [show u.gpr .r10 = _ from hb, hm.gpr, hl.gpr, h.b, X86.offset_add, Nat.mul_comm tileCols 4,
      ← Nat.mul_add, Nat.add_mul, Nat.one_mul]
  · rw [hgpr _ (by decide) (by decide), h.tile]
  · rw [hgpr _ (by decide) (by decide), h.stride]
  · intro hbias
    rw [hgpr _ (by decide) (by decide), h.bias hbias]
  · intro hkind i
    rw [hkept _ (by decide) (by decide), h.alpha hkind]
  · intro hkind hbetaZero i
    rw [hkept _ (by decide) (by decide), h.beta hkind hbetaZero]
  · intro w hw j hj i hi
    -- the words that the step reads are those of the panels
    have hpa : p * k.rows + (w * t.len.lanes + i) < x.steps.toNat * k.rows :=
      panel_lt hp (row_lt hlen hw hi)
    have hpb : p * tileCols + j < x.steps.toNat * tileCols := panel_lt hp hj
    rw [show u.vec (accReg w j) = _ from congrFun hvec _, hm.acc w hw j hj, if_pos hj,
      hl.lanes w hw, hl.mem, hl.gpr, h.a, h.b, h.mem, X86.offset_add, X86.offset_add,
      ← Nat.mul_add, ← Nat.mul_add, hl.others _ fun q hq => accReg_ne hw hj (aReg_ge hq),
      h.acc w hw j hj i hi, Args.sum, Args.sum, partialSum_succ hzero, panel_getD hpa,
      panel_getD hpb]
  · exact hgpr _ (by decide) (by decide)

end JitGemm.Tile
