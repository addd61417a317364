import JitGemm.Proofs.Tile.Parts

/-!
# What the loop of a tile kernel computes

The invariant of the loop: after so many steps the accumulators hold the sums over these steps, and
the two panel pointers stand behind them. The entry establishes it for no step, and one step takes
it one further.
-/

namespace JitGemm.Tile

open X86 (Machine Memory)

variable {ar : Arith UInt32} {t : OpTable} {k : TileKey}

-- ---------------------------------------------------------------------------
-- Calls leave most of a machine alone
-- ---------------------------------------------------------------------------

theorem runCalls_append (cs ds : List VecCall) (v : Machine) :
    runCalls ar t (cs ++ ds) v = runCalls ar t ds (runCalls ar t cs v) := by
  simp [runCalls]

theorem effect_gpr (fused : Bool) (n : Nat) (c : VecCall) (v : Machine) :
    (c.effect ar fused n v).gpr = v.gpr := by
  unfold VecCall.effect
  split <;> rfl

theorem runCalls_gpr (ar : Arith UInt32) (t : OpTable) (cs : List VecCall) (v : Machine) :
    (runCalls ar t cs v).gpr = v.gpr := by
  induction cs generalizing v with
  | nil => rfl
  | cons c cs ih => exact (ih _).trans (effect_gpr _ _ c v)

theorem runCalls_zero (ar : Arith UInt32) (t : OpTable) (rs : List Vreg) (v : Machine) :
    (runCalls ar t (rs.map .zero) v).mem = v.mem ∧
      ∀ r, (runCalls ar t (rs.map .zero) v).vec r = if r ∈ rs then fun _ => 0 else v.vec r := by
  induction rs generalizing v with
  | nil => simp [runCalls]
  | cons q rs ih =>
    obtain ⟨hmem, hvec⟩ := ih (v.set q fun _ => 0)
    refine ⟨hmem, fun r => (hvec r).trans ?_⟩
    by_cases hr : r ∈ rs
    · simp [hr]
    · simp [hr]

def accRegs : List Vreg := vecRange.flatMap fun w => colRange.map (accReg w)

theorem zeroCalls_eq : zeroCalls = accRegs.map .zero := by
  simp [zeroCalls, accRegs, List.map_flatMap, Function.comp_def]

theorem accReg_mem {w j : Nat} (hw : w < tileVecs) (hj : j < tileCols) : accReg w j ∈ accRegs :=
  List.mem_flatMap.mpr ⟨w, List.mem_range.mpr hw, List.mem_map.mpr ⟨j, List.mem_range.mpr hj, rfl⟩⟩

theorem not_mem_accRegs {r : Vreg} (hr : 8 ≤ r.num.toNat) : r ∉ accRegs := by
  intro h
  obtain ⟨w, hw, h⟩ := List.mem_flatMap.mp h
  obtain ⟨j, hj, rfl⟩ := List.mem_map.mp h
  exact accReg_ne (List.mem_range.mp hw) (List.mem_range.mp hj) hr rfl

-- ---------------------------------------------------------------------------
-- Sums
-- ---------------------------------------------------------------------------

def combine (ar : Arith UInt32) (t : OpTable) (k : TileKey) (x y z : UInt32) : UInt32 :=
  match k.kind with
  | .float => mulAdd ar t.fused x y z
  | .int => z + x * y

/-- The sum of the first `p` steps, as the lanes hold it. -/
def partialSum (ar : Arith UInt32) (t : OpTable) (k : TileKey) (a b : Array UInt32)
    (p i j : Nat) : UInt32 :=
  match k.kind with
  | .float => floatSum ar t.fused k.rows p a b i j
  | .int => (intSum k.rows p (a.map (·.toInt32)) (b.map (·.toInt32)) i j).toUInt32

theorem partialSum_zero (hzero : ar.zero = 0) (a b : Array UInt32) (i j : Nat) :
    partialSum ar t k a b 0 i j = 0 := by
  unfold partialSum
  split
  · simpa [floatSum] using hzero
  · rfl

theorem getD_map (a : Array UInt32) (q : Nat) :
    (a.map (·.toInt32)).getD q 0 = (a.getD q 0).toInt32 := by
  by_cases h : q < a.size
  · simp [Array.getD, h]
  · simp [Array.getD, h]

theorem partialSum_succ (hzero : ar.zero = 0) (a b : Array UInt32) (p i j : Nat) :
    partialSum ar t k a b (p + 1) i j =
      combine ar t k (a.getD (p * k.rows + i) 0) (b.getD (p * tileCols + j) 0)
        (partialSum ar t k a b p i j) := by
  unfold partialSum combine
  cases k.kind with
  | float => simp [floatSum, List.range_succ, hzero]
  | int =>
    simp only [intSum, List.range_succ, List.foldl_append, List.foldl_cons, List.foldl_nil,
      getD_map]
    simp

-- ---------------------------------------------------------------------------
-- Ranges
-- ---------------------------------------------------------------------------

/-- An invariant of a range: what holds of the first `n` items after them. -/
theorem foldl_range {β : Type} {P : Nat → β → Prop} {f : β → Nat → β} {n : Nat}
    (hs : ∀ j < n, ∀ v, P j v → P (j + 1) (f v j)) {v : β} (h : P 0 v) :
    P n ((List.range n).foldl f v) := by
  induction n with
  | zero => exact h
  | succ n ih =>
    rw [List.range_succ, List.foldl_append]
    exact hs n (Nat.lt_succ_self n) _ (ih fun j hj => hs j (Nat.lt_succ_of_lt hj))

theorem runCalls_flatMap {β : Type} (l : List β) (f : β → List VecCall) (v : Machine) :
    runCalls ar t (l.flatMap f) v = l.foldl (fun v a => runCalls ar t (f a) v) v := by
  induction l generalizing v with
  | nil => rfl
  | cons a l ih => rw [List.flatMap_cons, runCalls_append, ih, List.foldl_cons]

theorem runCalls_map {β : Type} (l : List β) (f : β → VecCall) (v : Machine) :
    runCalls ar t (l.map f) v =
      l.foldl (fun v a => (f a).effect ar t.fused t.len.lanes v) v := by
  simp [runCalls, List.foldl_map]

-- ---------------------------------------------------------------------------
-- One column of one step
-- ---------------------------------------------------------------------------

/-- What the first `n` registers of column `j` have got after a step with the value `y` of B. -/
structure Added (ar : Arith UInt32) (t : OpTable) (k : TileKey) (v : Machine) (y : UInt32)
    (j n : Nat) (u : Machine) : Prop where
  mem : u.mem = v.mem
  acc : ∀ w < tileVecs, ∀ i, u.vec (accReg w j) i =
    if w < n then combine ar t k (v.vec (aReg w) i) y (v.vec (accReg w j) i)
    else v.vec (accReg w j) i
  others : ∀ r, r ≠ tmpReg → (∀ w < tileVecs, r ≠ accReg w j) → u.vec r = v.vec r

/-- The calls of a column for register `w`, behind its broadcast. -/
def addCalls (k : TileKey) (j w : Nat) : List VecCall :=
  match k.kind with
  | .float => [.fmadd231 (accReg w j) (aReg w) (.reg bReg)]
  | .int => [.pmullD tmpReg (aReg w) (.reg bReg), .paddD (accReg w j) (accReg w j) (.reg tmpReg)]

/-- The broadcast of a column. -/
def valueCall (k : TileKey) (j : Nat) : VecCall :=
  match k.kind with
  | .float => .broadcast bReg (.past .r10 (Int32.ofNat (j * 4)))
  | .int => .broadcastD bReg (.mem (.past .r10 (Int32.ofNat (j * 4))))

theorem stepColumn_eq (k : TileKey) (j : Nat) :
    stepColumn k .x86 j = valueCall k j :: vecRange.flatMap (addCalls k j) := by
  unfold stepColumn valueCall addCalls
  cases k.kind with
  | float =>
    simp only [List.map_eq_flatMap]
    rfl
  | int => rfl

theorem addCalls_effect (ar : Arith UInt32) (t : OpTable) (k : TileKey) {j w : Nat}
    (hw : w < tileVecs) (hj : j < tileCols) (v : Machine) :
    let u := runCalls ar t (addCalls k j w) v
    u.mem = v.mem ∧
      (∀ i, u.vec (accReg w j) i =
        combine ar t k (v.vec (aReg w) i) (v.vec bReg i) (v.vec (accReg w j) i)) ∧
      ∀ r, r ≠ tmpReg → r ≠ accReg w j → u.vec r = v.vec r := by
  have htmp : accReg w j ≠ tmpReg := accReg_ne hw hj (by decide)
  unfold addCalls combine
  cases k.kind with
  | float =>
    refine ⟨rfl, fun i => ?_, fun r _ hr => ?_⟩
    · simp [runCalls, VecCall.effect]
    · simp [runCalls, VecCall.effect, hr]
  | int =>
    refine ⟨rfl, fun i => ?_, fun r hr hacc => ?_⟩
    · simp [runCalls, VecCall.effect, htmp]
    · simp [runCalls, VecCall.effect, hr, hacc]

theorem added_succ {v u : Machine} {y : UInt32} {j n : Nat} (hn : n < tileVecs) (hj : j < tileCols)
    (hb : ∀ i, v.vec bReg i = y) (h : Added ar t k v y j n u) :
    Added ar t k v y j (n + 1) (runCalls ar t (addCalls k j n) u) := by
  obtain ⟨hmem, hacc, hothers⟩ := addCalls_effect ar t k hn hj u
  have ha : u.vec (aReg n) = v.vec (aReg n) :=
    h.others _ (aReg_ne hn (by decide)) fun w hw => (accReg_ne hw hj (aReg_ge hn)).symm
  have hbu : ∀ i, u.vec bReg i = y := fun i => by
    rw [h.others bReg (by decide) fun w hw => (accReg_ne hw hj (by decide)).symm, hb]
  refine ⟨hmem.trans h.mem, fun w hw i => ?_, fun r hr haccs => ?_⟩
  · by_cases hwn : w = n
    · subst hwn
      rw [hacc i, ha, hbu, h.acc w hn, if_neg (Nat.lt_irrefl w), if_pos (Nat.lt_succ_self w)]
    · have hne : accReg w j ≠ accReg n j := fun heq => hwn ((accReg_inj hw hj hn hj).mp heq).1
      have hlt : w < n + 1 ↔ w < n := by omega
      rw [hothers _ (accReg_ne hw hj (by decide)) hne, h.acc w hw]
      simp only [hlt]
  · rw [hothers r hr (haccs n hn), h.others r hr haccs]

/-- What one column of one step does. -/
theorem column_added (ar : Arith UInt32) (t : OpTable) (k : TileKey) {j : Nat} (hj : j < tileCols)
    (v : Machine) :
    let u := runCalls ar t (stepColumn k .x86 j) v
    u.mem = v.mem ∧
      (∀ w < tileVecs, ∀ i, u.vec (accReg w j) i =
        combine ar t k (v.vec (aReg w) i) (v.mem.read32 (v.gpr .r10 + UInt64.ofNat (4 * j)))
          (v.vec (accReg w j) i)) ∧
      ∀ r, r ≠ bReg → r ≠ tmpReg → (∀ w < tileVecs, r ≠ accReg w j) → u.vec r = v.vec r := by
  intro u
  let y := v.mem.read32 (v.gpr .r10 + UInt64.ofNat (4 * j))
  have hvalue : (valueCall k j).effect ar t.fused t.len.lanes v = v.set bReg fun _ => y := by
    have haddress : v.address (.past .r10 (Int32.ofNat (j * 4))) =
        v.gpr .r10 + UInt64.ofNat (4 * j) := by
      rw [v.address_past .r10 (by simp only [tileCols] at hj; omega), Nat.mul_comm]
    unfold valueCall
    cases k.kind <;> simp only [VecCall.effect, haddress, y]
  have hu : u = vecRange.foldl (fun v w => runCalls ar t (addCalls k j w) v)
      (v.set bReg fun _ => y) := by
    simp only [u, stepColumn_eq, ← runCalls_flatMap, ← hvalue]
    rfl
  have hadded : Added ar t k (v.set bReg fun _ => y) y j tileVecs u := by
    rw [hu]
    exact foldl_range (P := Added ar t k (v.set bReg fun _ => y) y j)
      (fun w hw v' h => added_succ hw hj (fun i => by simp) h)
      ⟨rfl, fun w _ i => by simp, fun _ _ _ => rfl⟩
  refine ⟨hadded.mem, fun w hw i => ?_, fun r hb htmp haccs => ?_⟩
  · have hacc : accReg w j ≠ bReg := accReg_ne hw hj (by decide)
    have ha : aReg w ≠ bReg := aReg_ne hw (by decide)
    rw [hadded.acc w hw i, if_pos hw]
    simp [hacc, ha, y]
  · rw [hadded.others r htmp haccs]
    simp [hb]

end JitGemm.Tile
