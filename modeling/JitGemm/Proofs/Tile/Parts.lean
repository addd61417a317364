import JitGemm.Proofs.X86.Scalar
import JitGemm.Tile.Code

/-!
# The parts of a tile kernel

Entry, step and write-back of a tile kernel each do what their operations say, one after the other.
No operation of a tile touches the scratch registers.
-/

namespace JitGemm

open X86 (Machine)

variable {ar : Arith UInt32} {t : OpTable} {k : TileKey}

namespace Tile

-- ---------------------------------------------------------------------------
-- Registers
-- ---------------------------------------------------------------------------

theorem scratch_eq (t : OpTable) : t.scratchVreg = ⟨15⟩ ∨ t.scratchVreg = ⟨31⟩ := by
  unfold OpTable.scratchVreg OpTable.numVregs
  split
  · exact .inl rfl
  · exact .inr rfl

theorem ne_scratch {v : Vreg} (h : v.num ≤ 13) : v ≠ t.scratchVreg := by
  rintro rfl
  rcases scratch_eq t with hx | hx <;> rw [hx] at h <;> exact absurd h (by decide)

theorem accReg_num {v j : Nat} (hv : v < tileVecs) (hj : j < tileCols) :
    (accReg v j).num.toNat = v * tileCols + j := by
  have hsmall : v * tileCols + j < 256 := by
    simp only [tileVecs, tileCols] at *
    omega
  simp [accReg, Nat.mod_eq_of_lt hsmall]

theorem aReg_num {v : Nat} (hv : v < tileVecs) : (aReg v).num.toNat = 8 + v := by
  have hsmall : 8 + v < 256 := by
    simp only [tileVecs] at hv
    omega
  simp only [aReg, UInt8.toNat_ofNat', Nat.mod_eq_of_lt hsmall]

theorem accReg_le {v j : Nat} (hv : v < tileVecs) (hj : j < tileCols) :
    (accReg v j).num ≤ 13 := by
  rw [UInt8.le_iff_toNat_le, accReg_num hv hj]
  simp only [tileVecs, tileCols] at *
  show v * 4 + j ≤ 13
  omega

theorem aReg_le {v : Nat} (hv : v < tileVecs) : (aReg v).num ≤ 13 := by
  rw [UInt8.le_iff_toNat_le, aReg_num hv]
  simp only [tileVecs] at hv
  show 8 + v ≤ 13
  omega

theorem accReg_inj {v j w i : Nat} (hv : v < tileVecs) (hj : j < tileCols) (hw : w < tileVecs)
    (hi : i < tileCols) : accReg v j = accReg w i ↔ v = w ∧ j = i := by
  constructor
  · intro h
    have hnum := congrArg (fun r => r.num.toNat) h
    simp only [accReg_num hv hj, accReg_num hw hi] at hnum
    simp only [tileVecs, tileCols] at *
    omega
  · rintro ⟨rfl, rfl⟩
    rfl

theorem accReg_ne {v j : Nat} (hv : v < tileVecs) (hj : j < tileCols) {r : Vreg}
    (hr : 8 ≤ r.num.toNat) : accReg v j ≠ r := by
  rintro rfl
  rw [accReg_num hv hj] at hr
  simp only [tileVecs, tileCols] at *
  omega

theorem aReg_ge {v : Nat} (hv : v < tileVecs) : 8 ≤ (aReg v).num.toNat := by
  rw [aReg_num hv]
  exact Nat.le_add_right 8 v

theorem aReg_ne {v : Nat} (hv : v < tileVecs) {r : Vreg} (hr : 10 ≤ r.num.toNat) : aReg v ≠ r := by
  rintro rfl
  rw [aReg_num hv] at hr
  simp only [tileVecs] at hv
  omega

def Regs.x86 : Regs :=
  { steps := .r8, a := .r9, b := .r10, c := .rbx, stride := .rbp, bias := .r12, column := .r13 }

theorem regs_x86 {target : Target} (h : target.isX86) : Regs.of target = Regs.x86 := if_pos h

-- ---------------------------------------------------------------------------
-- Entry
-- ---------------------------------------------------------------------------

variable (ar t k)

def runOps (ops : List ScalarOp) (v : Machine) : Machine := ops.foldl (fun v op => op.effect v) v

def runCalls (cs : List VecCall) (v : Machine) : Machine :=
  cs.foldl (fun v c => c.effect ar t.fused t.len.lanes v) v

def entryOps (args : Gpr) : List ScalarOp :=
  [.load .r8 (.past args stepsAt), .load .r9 (.past args panelAAt),
    .load .r10 (.past args panelBAt), .load .rbx (.past args tileAt),
    .load .rbp (.past args strideAt)] ++
    if k.withBias then [.load .r12 (.past args biasAt)] else []

def constantCalls (args : Gpr) : List VecCall :=
  if k.kind = .float then
    .broadcast alphaReg (.past args alphaAt) ::
      if k.betaZero then [] else [.broadcast betaReg (.past args betaAt)]
  else []

def zeroCalls : List VecCall :=
  vecRange.flatMap fun v => colRange.map fun j => .zero (accReg v j)

def entryEffect (args : Gpr) (v : Machine) : Machine :=
  runCalls ar t zeroCalls (runCalls ar t (constantCalls k args) (runOps (entryOps k args) v))

variable {ar t k}

theorem entry_eq (args : Gpr) :
    entry t k .x86 args = (entryOps k args).flatMap t.target.scalar ++
      (constantCalls k args).flatMap t.vector ++ zeroCalls.flatMap t.vector := by
  cases hkind : k.kind with
  | float => simp only [entry, constantCalls, hkind, ↓reduceIte]; rfl
  | int => simp only [entry, constantCalls, hkind, reduceCtorEq, ↓reduceIte]; rfl

theorem does_entry (ar : Arith UInt32) (ht : t.target.isX86) {args : Gpr}
    (hclean : ∀ e ∈ entry t k .x86 args, e.Clean) :
    Does ar t (some t.scratchVreg) (entry t k .x86 args) (entryEffect ar t k args) := by
  rw [entry_eq] at hclean ⊢
  have hops : ∀ op ∈ entryOps k args, op.Short := by
    simp only [entryOps]
    split <;> simp +decide [ScalarOp.Short]
  have hconstants : ∀ c ∈ constantCalls k args, c.Within t.scratchVreg := by
    have halpha : alphaReg ≠ t.scratchVreg := ne_scratch (by decide)
    have hbeta : betaReg ≠ t.scratchVreg := ne_scratch (by decide)
    unfold constantCalls
    split <;> (try split) <;> simp [VecCall.Within, halpha, hbeta]
  have hzeros : ∀ c ∈ zeroCalls, c.Within t.scratchVreg := by
    intro c hc
    obtain ⟨v, hv, hc⟩ := List.mem_flatMap.mp hc
    obtain ⟨j, hj, rfl⟩ := List.mem_map.mp hc
    exact ne_scratch (accReg_le (List.mem_range.mp hv) (List.mem_range.mp hj))
  refine ((does_scalars ht hops fun e he => hclean e ?_).append
    (does_calls ht hconstants fun e he => hclean e ?_)).append
    (does_calls ht hzeros fun e he => hclean e ?_) <;> simp [he]

-- ---------------------------------------------------------------------------
-- Step
-- ---------------------------------------------------------------------------

variable (ar t k)

def loadCalls : List VecCall :=
  vecRange.map fun v =>
    match k.kind with
    | .float => .load (aReg v) (vecAddress t .r9 v)
    | .int => .intLoad (aReg v) (vecAddress t .r9 v)

def moveOps : List ScalarOp :=
  [.addOffset .r9 (Int64.ofNat (t.len.bytes * tileVecs)),
    .addOffset .r10 (Int64.ofNat (tileCols * 4))]

def stepEffect (v : Machine) : Machine :=
  runOps (moveOps t) (runCalls ar t (colRange.flatMap (stepColumn k .x86))
    (runCalls ar t (loadCalls t k) v))

variable {ar t k}

theorem step_eq : step t k .x86 = (loadCalls t k).flatMap t.vector ++
    (colRange.flatMap (stepColumn k .x86)).flatMap t.vector ++
    (moveOps t).flatMap t.target.scalar := rfl

theorem stepColumn_within {j : Nat} (hj : j < tileCols) :
    ∀ c ∈ stepColumn k .x86 j, c.Within t.scratchVreg := by
  have hb : bReg ≠ t.scratchVreg := ne_scratch (by decide)
  have htmp : tmpReg ≠ t.scratchVreg := ne_scratch (by decide)
  intro c hc
  unfold stepColumn at hc
  cases hkind : k.kind with
  | float =>
    simp only [hkind, List.mem_cons, List.mem_map] at hc
    rcases hc with rfl | ⟨v, hv, rfl⟩
    · exact hb
    · have hv := List.mem_range.mp hv
      exact ⟨ne_scratch (accReg_le hv hj), ne_scratch (aReg_le hv), hb⟩
  | int =>
    simp only [hkind, List.mem_cons, List.mem_flatMap, List.not_mem_nil, or_false] at hc
    rcases hc with rfl | ⟨v, hv, rfl | rfl⟩
    · exact hb
    · exact ⟨by decide, htmp, ne_scratch (aReg_le (List.mem_range.mp hv)), hb⟩
    · have hv := List.mem_range.mp hv
      have hacc := ne_scratch (t := t) (accReg_le hv hj)
      exact ⟨(accReg_ne hv hj (by decide)).symm, hacc, hacc, htmp⟩

theorem moveOps_short : ∀ op ∈ moveOps t, op.Short := by
  rcases t with ⟨target, len, caps⟩
  cases len <;> simp +decide [moveOps, ScalarOp.Short]

theorem does_step (ar : Arith UInt32) (ht : t.target.isX86)
    (hclean : ∀ e ∈ step t k .x86, e.Clean) :
    Does ar t (some t.scratchVreg) (step t k .x86) (stepEffect ar t k) := by
  rw [step_eq] at hclean ⊢
  have hloads : ∀ c ∈ loadCalls t k, c.Within t.scratchVreg := by
    intro c hc
    obtain ⟨v, hv, rfl⟩ := List.mem_map.mp hc
    have ha := ne_scratch (t := t) (aReg_le (List.mem_range.mp hv))
    cases hkind : k.kind <;> exact ha
  have hcolumns : ∀ c ∈ colRange.flatMap (stepColumn k .x86), c.Within t.scratchVreg := by
    intro c hc
    obtain ⟨j, hj, hc⟩ := List.mem_flatMap.mp hc
    exact stepColumn_within (List.mem_range.mp hj) c hc
  refine ((does_calls ht hloads fun e he => hclean e ?_).append
    (does_calls ht hcolumns fun e he => hclean e ?_)).append
    (does_scalars ht moveOps_short fun e he => hclean e ?_) <;> simp [he]

-- ---------------------------------------------------------------------------
-- Write-back
-- ---------------------------------------------------------------------------

variable (ar t k)

def biasCalls : List VecCall :=
  if k.kind = .float ∧ k.withBias then
    vecRange.map fun v => .load (aReg v) (vecAddress t .r12 v)
  else []

/-- What moves the column pointer on, except behind the last column. -/
def nextOps (j : Nat) : List ScalarOp := if j + 1 < tileCols then [.add .r13 .rbp] else []

/-- What writing column `j` does. -/
def columnEffect (j : Nat) (v : Machine) : Machine :=
  runOps (nextOps j) (runCalls ar t (vecRange.flatMap (writeRegister t k .x86 j)) v)

/-- What the write-back does. -/
def writeBackEffect (v : Machine) : Machine :=
  colRange.foldl (fun v j => columnEffect ar t k j v)
    (runCalls ar t (biasCalls t k) (runOps [.mov .r13 .rbx] v))

variable {ar t k}

theorem writeBack_eq : writeBack t k .x86 =
    [ScalarOp.mov .r13 .rbx].flatMap t.target.scalar ++ (biasCalls t k).flatMap t.vector ++
      colRange.flatMap fun j =>
        (vecRange.flatMap (writeRegister t k .x86 j)).flatMap t.vector ++
          (nextOps j).flatMap t.target.scalar := by
  have hnext : ∀ j, (nextOps j).flatMap t.target.scalar =
      if j + 1 < tileCols then scalars t [.add .r13 .rbp] else [] := by
    intro j
    unfold nextOps
    split <;> rfl
  simp only [hnext]
  by_cases hbias : k.kind = .float ∧ k.withBias
  · simp only [writeBack, biasCalls, hbias, and_self, ↓reduceIte]; rfl
  · simp only [writeBack, biasCalls, hbias, ↓reduceIte]; rfl

theorem writeRegister_within {j v : Nat} (hj : j < tileCols) (hv : v < tileVecs) :
    ∀ c ∈ writeRegister t k .x86 j v, c.Within t.scratchVreg := by
  have hacc := ne_scratch (t := t) (accReg_le hv hj)
  have ha := ne_scratch (t := t) (aReg_le hv)
  have halpha : alphaReg ≠ t.scratchVreg := ne_scratch (by decide)
  have hbeta : betaReg ≠ t.scratchVreg := ne_scratch (by decide)
  have htmp : tmpReg ≠ t.scratchVreg := ne_scratch (by decide)
  have halpha' : alphaReg ≠ accReg v j := (accReg_ne hv hj (by decide)).symm
  have ha' : aReg v ≠ accReg v j := (accReg_ne hv hj (aReg_ge hv)).symm
  intro c hc
  unfold writeRegister at hc
  cases hkind : k.kind with
  | int =>
    simp only [hkind, List.mem_singleton] at hc
    subst hc
    exact hacc
  | float =>
    simp only [hkind, List.mem_append, List.mem_singleton] at hc
    rcases hc with ((rfl | hc) | hc) | rfl
    · exact ⟨halpha', hacc, hacc, halpha⟩
    · split at hc
      · obtain rfl := List.mem_singleton.mp hc
        exact ⟨ha', hacc, hacc, ha⟩
      · cases hc
    · split at hc
      · cases hc
      · rcases List.mem_cons.mp hc with rfl | hc
        · exact htmp
        · obtain rfl := List.mem_singleton.mp hc
          exact ⟨hacc, hbeta, htmp⟩
    · exact hacc

theorem does_writeBack (ar : Arith UInt32) (ht : t.target.isX86)
    (hclean : ∀ e ∈ writeBack t k .x86, e.Clean) :
    Does ar t (some t.scratchVreg) (writeBack t k .x86) (writeBackEffect ar t k) := by
  rw [writeBack_eq] at hclean ⊢
  have hmov : ∀ op ∈ [ScalarOp.mov .r13 .rbx], op.Short := by
    simp +decide [ScalarOp.Short]
  have hbias : ∀ c ∈ biasCalls t k, c.Within t.scratchVreg := by
    intro c hc
    unfold biasCalls at hc
    split at hc
    · obtain ⟨v, hv, rfl⟩ := List.mem_map.mp hc
      exact ne_scratch (aReg_le (List.mem_range.mp hv))
    · cases hc
  refine ((does_scalars ht hmov fun e he => hclean e ?_).append
    (does_calls ht hbias fun e he => hclean e ?_)).append
    (.flatMap fun j hj => ?_)
  · simp only [List.mem_append, he, true_or]
  · simp only [List.mem_append, he, true_or, or_true]
  · have hj' : j < tileCols := List.mem_range.mp hj
    have hcolumn : ∀ c ∈ vecRange.flatMap (writeRegister t k .x86 j), c.Within t.scratchVreg := by
      intro c hc
      obtain ⟨v, hv, hc⟩ := List.mem_flatMap.mp hc
      exact writeRegister_within hj' (List.mem_range.mp hv) c hc
    have hnext : ∀ op ∈ nextOps j, op.Short := by
      unfold nextOps
      split <;> simp +decide [ScalarOp.Short]
    have hpart : ∀ e ∈ (vecRange.flatMap (writeRegister t k .x86 j)).flatMap t.vector ++
        (nextOps j).flatMap t.target.scalar, e.Clean := fun e he =>
      hclean e (List.mem_append_right _ (List.mem_flatMap_of_mem hj he))
    exact (does_calls ht hcolumn fun e he => hpart e (List.mem_append_left _ he)).append
      (does_scalars ht hnext fun e he => hpart e (List.mem_append_right _ he))

end Tile

end JitGemm
