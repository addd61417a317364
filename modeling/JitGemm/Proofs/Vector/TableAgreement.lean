import JitGemm.Proofs.Scalar.Accesses
import JitGemm.Proofs.Vector.Naming

/-!
# The table and the emitters

Which lowering an operation has is said in the table, and what it emits under that lowering is said
with each operation. The two agree: an operation with a lowering can be emitted on all operands that
its target can name, and one without is refused as that operation, at that width and for that
target. The legacy form of a blend is the one that asks for more, register 0 as its mask.
-/

namespace JitGemm

open X86 (Opcode Rm)

-- ---------------------------------------------------------------------------
-- Operands
-- ---------------------------------------------------------------------------

/-- An address that the memory operands of a target can say. On AArch64 it has no index, and the
stack pointer is no base, for a far address is formed by an addition of registers. -/
def Target.Addressable (t : Target) (m : Address) : Prop :=
  if t.isX86 then X86.Addressable m else m.index = none ∧ m.base.num ≤ 31 ∧ m.base ≠ .sp

def VecSource.Expressible (t : OpTable) : VecSource → Prop
  | reg v => v.num < t.numVregs
  | mem m => t.target.Addressable m

namespace VecCall

def operands : VecCall → List VecSource
  | mov d s | broadcastReg d s => [.reg d, .reg s]
  | zero d => [.reg d]
  | load d m | intLoad d m | broadcast d m => [.reg d, .mem m]
  | store m s | intStore m s => [.mem m, .reg s]
  | broadcastD d s | round d s _ | rcp d s | rsqrt d s => [.reg d, s]
  | add d a b | sub d a b | mul d a b | fmadd213 d a b | fmadd231 d a b | cmpGt d a b | cmpGe d a b
  | packSsdw d a b | packUswb d a b | paddD d a b | pmullD d a b => [.reg d, .reg a, b]
  | blend d s mask => [.reg d, s, .reg mask]

def Expressible (t : OpTable) (c : VecCall) : Prop := ∀ s ∈ c.operands, s.Expressible t

/-- A blend whose mask is not the one that the legacy form has. -/
def OtherMask : VecCall → Prop
  | blend _ _ mask => mask ≠ ⟨0⟩
  | _ => False

end VecCall

instance (t : Target) (m : Address) : Decidable (t.Addressable m) :=
  inferInstanceAs (Decidable (if t.isX86 then _ else _))

instance (t : OpTable) (s : VecSource) : Decidable (s.Expressible t) :=
  match s with
  | .reg v => inferInstanceAs (Decidable (v.num < t.numVregs))
  | .mem m => inferInstanceAs (Decidable (t.target.Addressable m))

instance (t : OpTable) (c : VecCall) : Decidable (c.Expressible t) :=
  inferInstanceAs (Decidable (∀ s ∈ c.operands, s.Expressible t))

-- ---------------------------------------------------------------------------
-- Emissions without errors
-- ---------------------------------------------------------------------------

def ErrorFree (es : List Emission) : Prop := ∀ e ∈ es, e.Clean

namespace ErrorFree

variable {es fs : List Emission}

theorem nil : ErrorFree [] := by simp [ErrorFree]

theorem append (h : ErrorFree es) (h' : ErrorFree fs) : ErrorFree (es ++ fs) :=
  List.forall_mem_append.mpr ⟨h, h'⟩

theorem x86 {i : X86.Instr} (h : i.Nameable) : ErrorFree [.x86 i] :=
  List.forall_mem_singleton.mpr h.fault

theorem arm {i : Arm64.Instr} (h : i.Encodable) : ErrorFree [.arm i] :=
  List.forall_mem_singleton.mpr (i.fault_iff.mpr h)

end ErrorFree

namespace OpTable

variable {t : OpTable} {op : VecOp} {low : Lowering} {d a : Vreg} {b : VecSource}
  {imm : Option UInt8}

theorem numVregs_cases (t : OpTable) : t.numVregs = 16 ∨ t.numVregs = 32 := by
  unfold numVregs
  split
  · exact .inl rfl
  · exact .inr rfl

theorem expressible_zero (t : OpTable) : (VecSource.reg ⟨0⟩).Expressible t := by
  rcases t.numVregs_cases with h | h <;> simp [VecSource.Expressible, h]

theorem expressible_scratch (t : OpTable) : (VecSource.reg t.scratchVreg).Expressible t := by
  rcases t.numVregs_cases with h | h <;> simp +decide [VecSource.Expressible, scratchVreg, h]

-- ---------------------------------------------------------------------------
-- Instructions of x86-64
-- ---------------------------------------------------------------------------

section

variable (ht : t.target.isX86)
include ht

/-- Below 512 bits there are sixteen registers, and every form can name them. -/
theorem within_narrow (hlen : t.len ≠ .v512) (hb : b.Expressible t) :
    (Rm.ofSource b).Within 15 := by
  cases b with
  | reg v =>
    have hlt : v.num < 16 := by simpa [VecSource.Expressible, numVregs, ht, hlen] using hb
    exact UInt8.le_iff_toNat_le.mpr (Nat.le_of_lt_succ (UInt8.lt_iff_toNat_lt.mp hlt))
  | mem m =>
    have hm : X86.Addressable m := by simpa [VecSource.Expressible, Target.Addressable, ht] using hb
    exact hm

theorem within_wide (hb : b.Expressible t) : (Rm.ofSource b).Within 31 := by
  cases b with
  | reg v =>
    have hmost : t.numVregs ≤ 32 := by
      rcases t.numVregs_cases with h | h <;> simp [h]
    have hlt : v.num < 32 := UInt8.lt_of_lt_of_le hb hmost
    exact UInt8.le_iff_toNat_le.mpr (Nat.le_of_lt_succ (UInt8.lt_iff_toNat_lt.mp hlt))
  | mem m =>
    have hm : X86.Addressable m := by simpa [VecSource.Expressible, Target.Addressable, ht] using hb
    exact hm

variable (hd : (VecSource.reg d).Expressible t) (ha : (VecSource.reg a).Expressible t)
  (hb : b.Expressible t)
include hd ha

theorem move_free : ErrorFree (t.move d a) := by
  unfold move
  split
  · exact .nil
  · have hzero := t.expressible_zero
    rcases t.base_cases with ⟨hlow, hlen⟩ | ⟨hlow, hlen, -⟩ | ⟨hlow, -⟩ <;> simp only [hlow]
    · exact .x86 ⟨within_narrow ht hlen hd, within_narrow ht hlen ha⟩
    · exact .x86 ⟨⟨within_narrow ht hlen hd, within_narrow ht hlen hzero⟩,
        within_narrow ht hlen ha⟩
    · exact .x86 ⟨⟨within_wide ht hd, within_wide ht hzero⟩, within_wide ht ha⟩

include hb

theorem native_free (h : t.Native low) : ErrorFree (t.native op low d a b imm) := by
  cases low with
  | legacy =>
    have hlen : t.len ≠ .v512 := by
      rw [h.1]
      decide
    exact .x86 ⟨within_narrow ht hlen hd, within_narrow ht hlen hb⟩
  | vex => exact .x86 ⟨⟨within_narrow ht h hd, within_narrow ht h ha⟩, within_narrow ht h hb⟩
  | evex => exact .x86 ⟨⟨within_wide ht hd, within_wide ht ha⟩, within_wide ht hb⟩
  | asimd | synthesized => exact h.elim

theorem legacyBinary_free (h : t.Native .legacy) : ErrorFree (t.legacyBinary op d a b imm) := by
  have hscratch := t.expressible_scratch
  have hzero := t.expressible_zero
  unfold legacyBinary
  split
  · split
    · exact native_free ht hd hzero ha h
    · exact ((move_free ht hscratch hd).append (move_free ht hd ha)).append
        (native_free ht hd hzero hscratch h)
  · exact (move_free ht hd ha).append (native_free ht hd hzero hb h)

theorem arith_free (h : t.Native t.baseLowering) : ErrorFree (t.arith op d a b) := by
  unfold arith
  cases hlow : t.baseLowering with
  | legacy => exact legacyBinary_free ht hd ha hb (hlow ▸ h)
  | vex | evex | asimd | synthesized => exact native_free ht hd ha hb (hlow ▸ h)

theorem mulThenAdd_free (h : t.Native t.baseLowering) : ErrorFree (t.mulThenAdd op d a b) := by
  have hscratch := t.expressible_scratch
  unfold mulThenAdd
  cases op with
  | fmadd213 =>
    simp only
    split
    · exact (arith_free ht hscratch hd ha h).append (arith_free ht hd hscratch hb h)
    · exact (arith_free ht hd hd ha h).append (arith_free ht hd hd hb h)
  | _ => exact (arith_free ht hscratch ha hb h).append (arith_free ht hd hd hscratch h)

end

-- ---------------------------------------------------------------------------
-- Instructions of AArch64
-- ---------------------------------------------------------------------------

section

variable (ht : t.target.isX86 = false)
include ht

theorem vreg_le (hd : (VecSource.reg d).Expressible t) : d.num ≤ 31 := by
  have hlt : d.num < 32 := by simpa [VecSource.Expressible, numVregs, ht] using hd
  exact UInt8.le_iff_toNat_le.mpr (Nat.le_of_lt_succ (UInt8.lt_iff_toNat_lt.mp hlt))

variable {m : Address} (hm : t.target.Addressable m)
include hm

/-- The base and the displacement that an access is left with are in reach. -/
theorem armAddress_free : ErrorFree (t.target.armAddress m 16).1 ∧
    (t.target.armAddress m 16).2.1.num ≤ 31 ∧
      Arm64.ScaledOffset 16 (t.target.armAddress m 16).2.2 := by
  have hm : m.index = none ∧ m.base.num ≤ 31 ∧ m.base ≠ .sp := by
    simpa [Target.Addressable, ht] using hm
  rw [Target.eq_aarch64 ht]
  have hzero : Arm64.fitsScaled 0 16 := rfl
  obtain ⟨hclean, hbase, hdisp⟩ := Arm64.armAddress_clean hm.1 hm.2 hzero
  exact ⟨hclean, hbase, Arm64.fits16_iff.mp hdisp⟩

variable (hd : (VecSource.reg d).Expressible t)
include hd

theorem armLoad_free : ErrorFree (t.armLoad d m) := by
  obtain ⟨hfree, hbase, hdisp⟩ := armAddress_free ht hm
  exact hfree.append (.arm ⟨vreg_le ht hd, hdisp, hbase⟩)

theorem armStore_free : ErrorFree (t.armStore m d) := by
  obtain ⟨hfree, hbase, hdisp⟩ := armAddress_free ht hm
  exact hfree.append (.arm ⟨vreg_le ht hd, hdisp, hbase⟩)

theorem armBroadcast_free : ErrorFree (t.armBroadcast d m) := by
  have hm : m.index = none ∧ m.base.num ≤ 31 ∧ m.base ≠ .sp := by
    simpa [Target.Addressable, ht] using hm
  have hscratch : t.target.scratchGpr.num ≤ 31 := by
    rw [Target.eq_aarch64 ht]
    decide
  unfold armBroadcast
  split
  · exact .arm ⟨vreg_le ht hd, hm.2.1⟩
  · refine ErrorFree.append ?_ (.arm ⟨vreg_le ht hd, hscratch⟩)
    unfold armFormAddress
    rw [hm.1, if_neg (by simp)]
    split
    · rename_i hnear
      simp only [Bool.and_eq_true, decide_eq_true_eq] at hnear
      exact .arm ⟨Arm64.toUInt32_near hnear.1 hnear.2, hscratch, hm.2.1⟩
    · exact (ErrorFree.arm (i := .movImm _ _) hscratch).append
        (.arm ⟨hscratch, hm.2.1, hscratch⟩)

end

theorem armBinary_free (ht : t.target.isX86 = false) (base : UInt32)
    (hd : (VecSource.reg d).Expressible t) (ha : (VecSource.reg a).Expressible t)
    (hb : b.Expressible t) : ErrorFree (t.armBinary base d a b) := by
  cases b with
  | reg b => exact .arm ⟨vreg_le ht hd, vreg_le ht ha, vreg_le ht hb⟩
  | mem m =>
    have hscratch := t.expressible_scratch
    exact (armLoad_free ht hb hscratch).append
      (.arm ⟨vreg_le ht hd, vreg_le ht ha, vreg_le ht hscratch⟩)

-- ---------------------------------------------------------------------------
-- One source
-- ---------------------------------------------------------------------------

/-- The operations of one source and a destination, and what their sources may be. -/
inductive HasSource : VecOp → VecSource → Prop
  | load (m : Address) : HasSource .load (.mem m)
  | intLoad (m : Address) : HasSource .intLoad (.mem m)
  | broadcast (m : Address) : HasSource .broadcastFromMem (.mem m)
  | broadcastReg (v : Vreg) : HasSource .broadcastFromReg (.reg v)
  | broadcastD (s : VecSource) : HasSource .broadcastD s
  | round (s : VecSource) : HasSource .round s
  | rcp (s : VecSource) : HasSource .rcp s
  | rsqrt (s : VecSource) : HasSource .rsqrt s

/-- At 512 bits every broadcast and every multiply-add has its own instruction. -/
theorem narrow_of_synthesized (ht : t.target.isX86) (h : t.lowering? op = some .synthesized) :
    t.len ≠ .v512 := by
  intro hlen
  simp only [lowering?, ht, hlen, ↓reduceIte] at h
  delta VecOp.lower512 at h
  cases op <;> simp at h

theorem synthBroadcast_free (ht : t.target.isX86) (h : t.lowering? op = some .synthesized)
    (hop : HasSource op b) (hd : (VecSource.reg d).Expressible t) (hb : b.Expressible t) :
    ErrorFree (t.synthBroadcast op d b) := by
  have hlen := narrow_of_synthesized ht h
  have hd' : d.num ≤ 15 := within_narrow ht hlen hd
  have hb' := within_narrow ht hlen hb
  have hzero : (0 : UInt8) ≤ 15 := by decide
  have hsse : ∀ (op : Opcode) (rm : Rm) (imm : Option UInt8), rm.Within 15 →
      ErrorFree [.x86 (.sse op d.num rm imm)] := fun _ _ _ hrm => .x86 ⟨hd', hrm⟩
  have hvex : ∀ (op : Opcode) (l256 : Bool) (v : UInt8) (rm : Rm) (imm : Option UInt8),
      v ≤ 15 → rm.Within 15 → ErrorFree [.x86 (.vex op false l256 d.num v rm imm)] :=
    fun _ _ _ _ _ hv hrm => .x86 ⟨⟨hd', hv⟩, hrm⟩
  obtain ⟨-, -, hsynthesizes, -⟩ := lowering_native ht h
  have hbroadcast := hsynthesizes rfl
  cases hop with
  | broadcast m => exact (hsse _ _ _ hb').append (hsse _ _ _ hd')
  | broadcastReg s =>
    simp only [synthBroadcast]
    split
    · split
      · exact (hvex _ _ _ _ _ hb' hb').append (hvex _ _ _ _ _ hd' hd')
      · exact hvex _ _ _ _ _ hb' hb'
    · exact (move_free ht hd hb).append (hsse _ _ _ hd')
  | broadcastD =>
    cases b with
    | mem m =>
      simp only [synthBroadcast]
      split
      · exact (hvex _ _ _ _ _ hzero hb').append (hvex _ _ _ _ _ hzero hd')
      · exact (hsse _ _ _ hb').append (hsse _ _ _ hd')
    | reg v =>
      simp only [synthBroadcast]
      split
      · exact hvex _ _ _ _ _ hzero hb'
      · exact hsse _ _ _ hb'
  | load | intLoad | round | rcp | rsqrt => simp [Synthesizes, VecOp.isFma] at hbroadcast

theorem armUnary_free (ht : t.target.isX86 = false) (h : t.lowering? op = some .asimd)
    (hop : HasSource op b) (hd : (VecSource.reg d).Expressible t) (hb : b.Expressible t) :
    ErrorFree (t.armUnary op d b) := by
  cases hop with
  | load m | intLoad m => exact armLoad_free ht hb hd
  | broadcast m => exact armBroadcast_free ht hb hd
  | broadcastReg v => exact .arm ⟨vreg_le ht hd, vreg_le ht hb⟩
  | broadcastD | round | rcp | rsqrt => simp [lowering?, ht, VecOp.lowerAsimd] at h

theorem unary_free (h : t.lowering? op = some low) (hop : HasSource op b)
    (hd : (VecSource.reg d).Expressible t) (hb : b.Expressible t) :
    ErrorFree (t.unary op d b imm) := by
  simp only [unary, h]
  cases ht : t.target.isX86 with
  | false =>
    obtain ⟨rfl, -⟩ := lowering_arm ht h
    exact armUnary_free ht h hop hd hb
  | true =>
    obtain ⟨hnative, -⟩ := lowering_native ht h
    have hzero := t.expressible_zero
    cases low with
    | legacy | vex | evex => exact native_free ht hd hzero hb (hnative.resolve_right (by simp))
    | synthesized => exact synthBroadcast_free ht h hop hd hb
    | asimd => exact absurd rfl (lowering_ne_asimd ht h)

theorem storeTo_free (h : t.lowering? op = some low) (hop : op = .store ∨ op = .intStore)
    {m : Address} (hm : t.target.Addressable m) (hd : (VecSource.reg d).Expressible t) :
    ErrorFree (t.storeTo op m d) := by
  simp only [storeTo, h]
  cases ht : t.target.isX86 with
  | false =>
    obtain ⟨rfl, -⟩ := lowering_arm ht h
    exact armStore_free ht hm hd
  | true =>
    have hplain : ¬ Synthesizes op := by
      rcases hop with rfl | rfl <;> simp [Synthesizes, VecOp.isFma]
    have hnative := native_of_lowering ht h hplain
    have hzero := t.expressible_zero
    cases low with
    | legacy | vex | evex => exact native_free ht hd hzero hm hnative
    | synthesized | asimd => exact hnative.elim

theorem clear_free (h : t.lowering? .zero = some low) (hd : (VecSource.reg d).Expressible t) :
    ErrorFree (t.clear d) := by
  simp only [clear, h]
  cases ht : t.target.isX86 with
  | false =>
    obtain ⟨rfl, -⟩ := lowering_arm ht h
    exact .arm (i := .moviZero d) (vreg_le ht hd)
  | true =>
    have hnative := native_of_lowering ht h (by simp [Synthesizes, VecOp.isFma])
    cases low with
    | legacy | vex | evex => exact native_free ht hd hd hd hnative
    | synthesized | asimd => exact hnative.elim

-- ---------------------------------------------------------------------------
-- Two sources
-- ---------------------------------------------------------------------------

def TwoSources : VecOp → Prop
  | .add | .sub | .mul | .fmadd213 | .fmadd231 | .cmpGt | .cmpGe | .packSsdw | .packUswb | .paddD
  | .pmullD => True
  | _ => False

/-- On AArch64 the operations of two sources that the table holds have a base. -/
theorem exists_base (ht : t.target.isX86 = false) (h : t.lowering? op = some low)
    (hop : TwoSources op) : ∃ base, op.asimdBase? = some base := by
  simp only [lowering?, ht, Bool.false_eq_true, ↓reduceIte, VecOp.lowerAsimd] at h
  split at h
  · cases h
  · cases op <;> first | exact hop.elim | exact ⟨_, rfl⟩ | cases h

section

variable (h : t.lowering? op = some low) (hd : (VecSource.reg d).Expressible t)
  (ha : (VecSource.reg a).Expressible t) (hb : b.Expressible t)
include h hd ha hb

theorem binary_free (hop : TwoSources op) (hfma : t.target.isX86 → op.isFma = false) :
    ErrorFree (t.binary op d a b imm) := by
  simp only [binary, h]
  cases ht : t.target.isX86 with
  | false =>
    obtain ⟨rfl, -⟩ := lowering_arm ht h
    obtain ⟨base, hbase⟩ := exists_base ht h hop
    simp only [hbase]
    exact armBinary_free ht base hd ha hb
  | true =>
    have hplain : ¬ Synthesizes op := by
      have hfma := hfma ht
      cases op <;> simp_all [Synthesizes, TwoSources]
    have hnative := native_of_lowering ht h hplain
    cases low with
    | legacy => exact legacyBinary_free ht hd ha hb hnative
    | vex | evex => exact native_free ht hd ha hb hnative
    | synthesized | asimd => exact hnative.elim

theorem fma_free (hop : op.isFma) : ErrorFree (t.fma op d a b) := by
  have hboth : TwoSources op := by cases op <;> first | exact trivial | cases hop
  cases ht : t.target.isX86 with
  | false =>
    obtain ⟨rfl, -⟩ := lowering_arm ht h
    simp only [fma, h]
    exact binary_free h hd ha hb hboth fun htrue => absurd (ht.symm.trans htrue) (by decide)
  | true =>
    obtain ⟨hnative, hbase, -, hlegacy⟩ := lowering_native ht h
    simp only [fma, h]
    cases low with
    | legacy => exact absurd (Or.inl hop) (hlegacy rfl)
    | vex | evex => exact native_free ht hd ha hb (hnative.resolve_right (by simp))
    | synthesized => exact mulThenAdd_free ht hd ha hb hbase
    | asimd => exact absurd rfl (lowering_ne_asimd ht h)

end

-- ---------------------------------------------------------------------------
-- Blends
-- ---------------------------------------------------------------------------

theorem blend_lowering (h : t.lowering? .blend = some low) :
    t.target.isX86 ∧ t.Native low := by
  have ht : t.target.isX86 := by
    refine eq_true_of_ne_false fun ht => ?_
    simp [lowering?, ht, VecOp.lowerAsimd] at h
  exact ⟨ht, native_of_lowering ht h (by simp [Synthesizes, VecOp.isFma])⟩

theorem blend_free {mask : Vreg} (h : t.lowering? .blend = some low)
    (hmask : low = .legacy → mask = ⟨0⟩) (hd : (VecSource.reg d).Expressible t)
    (hb : b.Expressible t) : ErrorFree (t.blend d b mask) := by
  obtain ⟨ht, hnative⟩ := blend_lowering h
  simp only [blend, h]
  cases low with
  | legacy =>
    rw [if_pos (hmask rfl)]
    exact native_free ht hd t.expressible_zero hb hnative
  | vex | evex => exact native_free ht hd hd hb hnative
  | synthesized | asimd => exact hnative.elim

-- ---------------------------------------------------------------------------
-- Calls
-- ---------------------------------------------------------------------------

theorem vector_free {c : VecCall} (hop : c.op? = some op) (h : t.lowering? op = some low)
    (hc : c.Expressible t) (hmask : ¬ (low = .legacy ∧ c.OtherMask)) :
    ErrorFree (t.vector c) := by
  cases c with
  | mov d s => cases hop
  | zero d =>
    have hd : (VecSource.reg d).Expressible t := hc _ List.mem_cons_self
    cases hop
    exact clear_free h hd
  | load d m | intLoad d m | broadcast d m =>
    obtain ⟨hd, hm⟩ : (VecSource.reg d).Expressible t ∧ (VecSource.mem m).Expressible t := by
      simpa [VecCall.Expressible, VecCall.operands] using hc
    cases hop
    exact unary_free h (by constructor) hd hm
  | broadcastReg d s =>
    obtain ⟨hd, hs⟩ : (VecSource.reg d).Expressible t ∧ (VecSource.reg s).Expressible t := by
      simpa [VecCall.Expressible, VecCall.operands] using hc
    cases hop
    exact unary_free h (.broadcastReg s) hd hs
  | broadcastD d s | rcp d s | rsqrt d s | round d s mode =>
    obtain ⟨hd, hs⟩ : (VecSource.reg d).Expressible t ∧ s.Expressible t := by
      simpa [VecCall.Expressible, VecCall.operands] using hc
    cases hop
    exact unary_free h (by constructor) hd hs
  | store m s | intStore m s =>
    obtain ⟨hm, hs⟩ : (VecSource.mem m).Expressible t ∧ (VecSource.reg s).Expressible t := by
      simpa [VecCall.Expressible, VecCall.operands] using hc
    cases hop
    exact storeTo_free h (by simp) hm hs
  | add d a b | sub d a b | mul d a b | cmpGt d a b | cmpGe d a b | packSsdw d a b
  | packUswb d a b | paddD d a b | pmullD d a b =>
    obtain ⟨hd, ha, hb⟩ : (VecSource.reg d).Expressible t ∧ (VecSource.reg a).Expressible t ∧
        b.Expressible t := by
      simpa [VecCall.Expressible, VecCall.operands] using hc
    cases hop
    exact binary_free h hd ha hb trivial fun _ => rfl
  | fmadd213 d a b | fmadd231 d a b =>
    obtain ⟨hd, ha, hb⟩ : (VecSource.reg d).Expressible t ∧ (VecSource.reg a).Expressible t ∧
        b.Expressible t := by
      simpa [VecCall.Expressible, VecCall.operands] using hc
    cases hop
    exact fma_free h hd ha hb rfl
  | blend d s mask =>
    obtain ⟨hd, hs, -⟩ : (VecSource.reg d).Expressible t ∧ s.Expressible t ∧
        (VecSource.reg mask).Expressible t := by
      simpa [VecCall.Expressible, VecCall.operands] using hc
    cases hop
    exact blend_free h (fun hlow => Decidable.of_not_not fun hne => hmask ⟨hlow, hne⟩) hd hs

/-- A call without an error that is no copy has code. -/
theorem code_ne_nil {c : VecCall} (hop : c.op? = some op) (hfree : ErrorFree (t.vector c)) :
    t.code c ≠ [] := by
  intro hnil
  obtain ⟨nss, hnames, -, hall⟩ := call_names hfree
  have hnone : nss = [] := by
    rw [hnil] at hnames
    exact Option.some.inj (hnames.named.symm.trans Target.Names.nil.named)
  have hcopy : ∀ d, c ≠ .mov d d := by
    rintro d rfl
    cases hop
  obtain ⟨⟨-, hvregs⟩, -⟩ := hall hcopy
  obtain ⟨v, hv⟩ : ∃ v, v ∈ c.masked.vregs := by
    cases c with
    | mov => cases hop
    | _ => exact ⟨_, List.mem_cons_self⟩
  simpa [hnone] using hvregs v hv

end OpTable

namespace Generator

/-- Each operation and its entry in the table agree. Without a lowering the call emits no byte and
is refused as that operation, at that width and for that target, whatever its operands. With one,
and with operands that the target can name, it emits code and records no error, but for a blend in
the legacy form whose mask is not register 0. -/
theorem vector_by_table (g : Generator) (c : VecCall) {op : VecOp} (hop : c.op? = some op)
    (hok : g.buffer.error = none) :
    let t := g.table
    let after := (g.vector c).buffer
    (t.lowering? op = none →
        after.bytes = g.buffer.bytes ∧ after.error = some (.noEncoding op t.len t.target)) ∧
      ∀ low, t.lowering? op = some low → c.Expressible t →
        (low = .legacy ∧ c.OtherMask →
            after.bytes = g.buffer.bytes ∧ after.error = some (.invalidOperand .legacyMask)) ∧
          (¬ (low = .legacy ∧ c.OtherMask) →
            after.error = none ∧ t.code c ≠ [] ∧
              after.bytes.toList = g.buffer.bytes.toList ++ t.code c) := by
  intro t after
  -- an error is recorded as it is, for there is none before it
  have hfail : ∀ e, t.vector c = [.fail e] →
      after.bytes = g.buffer.bytes ∧ after.error = some e := by
    intro e he
    have hafter : after = g.buffer.fail e := by
      simp only [after, vector, emit, t] at he ⊢
      rw [he]
      rfl
    simp [hafter, Code.Buffer.fail, hok]
  refine ⟨fun h => hfail _ (OpTable.vector_none hop h), fun low h hc => ⟨?_, fun hmask => ?_⟩⟩
  · rintro ⟨rfl, hmask⟩
    cases c with
    | blend d s mask =>
      cases hop
      refine hfail _ ?_
      have hmask : mask ≠ ⟨0⟩ := hmask
      simp [OpTable.vector, OpTable.blend, h, hmask, Emission.refuse]
    | _ => exact hmask.elim
  · have hfree := OpTable.vector_free hop h hc hmask
    exact ⟨(g.error_emit hfree).trans hok, OpTable.code_ne_nil hop hfree, g.bytes_vector c⟩

/-- A multiply-add in two steps with a far operand in memory, on a machine without extensions. -/
theorem fmadd_by_table :
    let g : Generator := { name := "k", origin := "k", table := ⟨.win64, .v128, .empty⟩ }
    let c : VecCall := .fmadd213 ⟨0⟩ ⟨15⟩ (.mem ⟨.r12, some ⟨.r13, 8⟩, -1000⟩)
    g.table.lowering? .fmadd213 = some .synthesized ∧ c.Expressible g.table ∧
      (g.vector c).buffer.error = none := by
  intro g c
  have hlow : g.table.lowering? .fmadd213 = some .synthesized := by decide
  have hc : c.Expressible g.table := by decide
  have hop : c.op? = some .fmadd213 := rfl
  obtain ⟨-, hall⟩ := vector_by_table g c hop rfl
  exact ⟨hlow, hc, ((hall _ hlow hc).2 (by simp)).1⟩

end Generator

end JitGemm
