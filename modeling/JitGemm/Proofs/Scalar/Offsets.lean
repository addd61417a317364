import JitGemm.Proofs.Scalar.Operations

/-!
# Offsets of any size

What is added to a register, or to a base, is added exactly, whichever way an architecture holds it:
in an immediate of its own width and sign, or in the scratch register.
-/

namespace JitGemm

-- ---------------------------------------------------------------------------
-- Immediates
-- ---------------------------------------------------------------------------

theorem toUInt32_imm12 {n : Int64} (hlo : 0 ≤ n) (hhi : n ≤ 0xFFF) :
    n.toUInt64.toUInt32 ≤ 0xFFF ∧ n.toUInt64.toUInt32.toUInt64 = n.toUInt64 := by
  have hle : n.toUInt64.toNat ≤ 0xFFF := by
    rw [Int64.toNat_toUInt64_of_le hlo]
    have hint := Int64.le_iff_toInt_le.mp hhi
    have hmax : (0xFFF : Int64).toInt = 0xFFF := rfl
    have hclamp : n.toNatClampNeg = n.toInt.toNat := rfl
    omega
  have hcut : n.toUInt64.toUInt32.toNat = n.toUInt64.toNat := by
    rw [UInt64.toNat_toUInt32]
    omega
  refine ⟨UInt32.le_iff_toNat_le.mpr (hcut ▸ hle), UInt64.toNat_inj.mp ?_⟩
  rw [UInt32.toNat_toUInt64, hcut]

theorem neg_imm12 {n : Int64} (hlo : -0xFFF ≤ n) (hneg : n < 0) : 0 ≤ -n ∧ -n ≤ 0xFFF := by
  rw [Int64.le_iff_toInt_le] at hlo
  rw [Int64.lt_iff_toInt_lt] at hneg
  rw [Int64.le_iff_toInt_le, Int64.le_iff_toInt_le, Int64.toInt_neg]
  have hleast : (-0xFFF : Int64).toInt = -0xFFF := by decide
  have hzero : (0 : Int64).toInt = 0 := rfl
  have hmost : (0xFFF : Int64).toInt = 0xFFF := rfl
  rw [Int.bmod_eq_of_le (by omega) (by omega)]
  omega

-- ---------------------------------------------------------------------------
-- Sums and differences
-- ---------------------------------------------------------------------------

namespace Target

variable {ar : Arith UInt32} {t : Target} {r : Gpr} {offset : Int64}

/-- Within twelve bits the immediate forms are used, which the stack pointer takes part in. -/
theorem computes_armImm (ht : t.isX86 = false) (hr : r.num ≤ 31) (hlo : -0xFFF ≤ offset)
    (hhi : offset ≤ 0xFFF) :
    t.Computes ar none (t.addOffset r offset) r fun s =>
      (t.core ar).reg s r + offset.toUInt64 := by
  by_cases hpos : 0 ≤ offset
  · obtain ⟨himm, hword⟩ := toUInt32_imm12 hpos hhi
    have hcode : t.addOffset r offset = [.arm (.addImm r r offset.toUInt64.toUInt32)] := by
      simp [addOffset, ht, hpos, hhi]
    rw [hcode]
    refine computes_arm (f := fun K s => K.reg s r + offset.toUInt64) ht
      (Arm64.imm12_clean.mpr ⟨himm, hr, hr⟩) fun s =>
        Arm64.sets_instr (Arm64.decodes_addImm hr hr himm) ?_
    rw [Arm64.Machine.exec, hword]
    rfl
  · have hneg : offset < 0 := Int64.not_le.mp hpos
    obtain ⟨hlow, hhigh⟩ := neg_imm12 hlo hneg
    obtain ⟨himm, hword⟩ := toUInt32_imm12 hlow hhigh
    have hcode : t.addOffset r offset = [.arm (.subImm r r (-offset).toUInt64.toUInt32)] := by
      simp [addOffset, ht, hpos, hlo, hneg]
    rw [hcode]
    refine computes_arm (f := fun K s => K.reg s r + offset.toUInt64) ht
      (Arm64.imm12_clean.mpr ⟨himm, hr, hr⟩) fun s =>
        Arm64.sets_instr (Arm64.decodes_subImm hr hr himm) ?_
    rw [Arm64.Machine.exec, hword, Int64.toUInt64_neg, UInt64.sub_neg]
    rfl

theorem addOffset_far (ht : t.isX86 = false) (hfar : ¬ (-0xFFF ≤ offset ∧ offset ≤ 0xFFF)) :
    t.addOffset r offset =
      [.arm (.movImm t.scratchGpr offset.toUInt64), .arm (.add r r t.scratchGpr)] := by
  have hadd : ¬ (0 ≤ offset ∧ offset ≤ 0xFFF) := fun h =>
    hfar ⟨Int64.le_trans (by decide) h.1, h.2⟩
  have hsub : ¬ (-0xFFF ≤ offset ∧ offset < 0) := fun h =>
    hfar ⟨h.1, Int64.le_trans (Int64.le_of_lt h.2) (by decide)⟩
  simp [addOffset, ht, hadd, hsub]

theorem computes_addFar (hr : t.HasGpr r) (hne : r ≠ t.scratchGpr) :
    t.Computes ar (some t.scratchGpr)
      (t.pick (.movImm t.scratchGpr offset) (.movImm t.scratchGpr offset.toUInt64) ++
        t.addGpr r t.scratchGpr) r fun s => (t.core ar).reg s r + offset.toUInt64 := by
  refine (computes_movImm t.hasGpr_scratch offset).hide.append (.inr rfl)
    (computes_add hr t.hasGpr_scratch).hide fun s u hu => ?_
  rw [hu.value, hu.others r hne fun h => hne (Option.some.inj h)]

theorem computes_addOffset (hr : t.HasGpr r) (hne : r ≠ t.scratchGpr) (offset : Int64) :
    t.Computes ar (some t.scratchGpr) (t.addOffset r offset) r fun s =>
      (t.core ar).reg s r + offset.toUInt64 := by
  cases ht : t.isX86 with
  | true =>
    by_cases hfit : X86.fitsInt32 offset
    · have hcode : t.addOffset r offset = [.x86 (.addImm r offset.toInt32)] := by
        simp [addOffset, ht, hfit]
      rw [hcode]
      refine (computes_x86 (i := .addImm r offset.toInt32)
        (f := fun K s => K.reg s r + offset.toUInt64) ht (hr.x86 ht) fun s => ⟨_, rfl, ?_⟩).hide
      rw [X86.toInt32_inverse hfit]
      exact X86.sets_setResult s r _
    · have hcode : t.addOffset r offset = t.pick (.movImm t.scratchGpr offset)
          (.movImm t.scratchGpr offset.toUInt64) ++ t.addGpr r t.scratchGpr := by
        simp [addOffset, addGpr, pick, ht, hfit]
      exact hcode ▸ computes_addFar hr hne
  | false =>
    by_cases hnear : -0xFFF ≤ offset ∧ offset ≤ 0xFFF
    · exact (computes_armImm ht (hr.arm ht).1 hnear.1 hnear.2).hide
    · have hcode : t.addOffset r offset = t.pick (.movImm t.scratchGpr offset)
          (.movImm t.scratchGpr offset.toUInt64) ++ t.addGpr r t.scratchGpr := by
        simp [addOffset_far ht hnear, addGpr, pick, ht]
      exact hcode ▸ computes_addFar hr hne

theorem computes_subOffset (hr : t.HasGpr r) (hne : r ≠ t.scratchGpr) (offset : Int64) :
    t.Computes ar (some t.scratchGpr) (t.subOffset r offset) r fun s =>
      (t.core ar).reg s r - offset.toUInt64 := by
  by_cases hmin : offset = Int64.minValue
  · have hcode : t.subOffset r offset = t.pick (.movImm t.scratchGpr offset)
        (.movImm t.scratchGpr offset.toUInt64) ++
          t.pick (.sub r t.scratchGpr) (.sub r r t.scratchGpr) := by
      cases t <;> simp [subOffset, pick, hmin, isX86]
    rw [hcode]
    refine (computes_movImm t.hasGpr_scratch offset).hide.append (.inr rfl)
      (computes_sub hr t.hasGpr_scratch).hide fun s u hu => ?_
    rw [hu.value, hu.others r hne fun h => hne (Option.some.inj h)]
  · have hcode : t.subOffset r offset = t.addOffset r (-offset) := if_neg hmin
    rw [hcode]
    refine (computes_addOffset hr hne (-offset)).congr fun s => ?_
    rw [Int64.toUInt64_neg, UInt64.sub_eq_add_neg]

end Target

-- ---------------------------------------------------------------------------
-- Addresses
-- ---------------------------------------------------------------------------

/-- Where a memory operand lies. -/
def Core.address (K : Core) (s : K.State) (m : Address) : UInt64 :=
  K.reg s m.base + (m.index.elim 0 fun i => K.reg s i.reg * i.scale.toUInt64) +
    m.disp.toInt64.toUInt64

@[simp] theorem Core.address_past (K : Core) (s : K.State) (base : Gpr) (disp : Int32) :
    K.address s (.past base disp) = K.reg s base + disp.toInt64.toUInt64 := by
  simp [address, Address.past]

namespace Target

/-- An operand that accesses take without a fault, and that does not move when they form an
address. -/
def Accessible (t : Target) (m : Address) : Prop :=
  if t.isX86 then X86.checkAddress m = .ok ()
  else m.index = none ∧ t.HasGpr m.base ∧ (m.base ≠ t.scratchGpr ∨ m.disp = 0)

/-- Emissions without fault after which the operand `m` lies where `value` says, and which change
nothing but the scratch register. -/
structure Forms (ar : Arith UInt32) (t : Target) (m : Address) (es : List Emission)
    (value : (t.core ar).State → UInt64) : Prop where
  accessible : t.Accessible m
  clean : ∀ e ∈ es, e.Clean
  run : ∀ s, ∃ s', t.Carries (t.core ar).step? (blockBytes es) s s' ∧
    (t.core ar).Keeps (some t.scratchGpr) s s' ∧ (t.core ar).address s' m = value s

variable {ar : Arith UInt32} {t : Target} {base : Gpr}

theorem forms_past (hb : t.HasGpr base) (hne : base ≠ t.scratchGpr) (disp : Int32) :
    t.Forms ar (.past base disp) [] fun s =>
      (t.core ar).reg s base + disp.toInt64.toUInt64 where
  accessible := by
    unfold Accessible
    split
    · rename_i ht
      have hle : ¬ 15 < base.num := UInt8.not_lt.mpr (hb.x86 ht)
      simp [X86.checkAddress, Address.past, hle]
    · exact ⟨rfl, hb, .inl hne⟩
  clean := by simp
  run s := ⟨s, .nil, .refl _ s, Core.address_past _ s base disp⟩

theorem forms_near (hb : t.HasGpr base) (hne : base ≠ t.scratchGpr) {offset : Int64}
    (hfit : X86.fitsInt32 offset) :
    t.Forms ar (.past base offset.toInt32) [] fun s =>
      (t.core ar).reg s base + offset.toUInt64 := by
  have hpast : t.Forms ar _ [] _ := forms_past hb hne offset.toInt32
  rwa [X86.toInt32_inverse hfit] at hpast

theorem forms_indexed (ht : t.isX86) (hb : t.HasGpr base) (hne : base ≠ t.scratchGpr)
    (offset : Int64) :
    t.Forms ar { base, index := some ⟨t.scratchGpr, 1⟩ }
      (t.pick (.movImm t.scratchGpr offset) (.movImm t.scratchGpr offset.toUInt64)) fun s =>
        (t.core ar).reg s base + offset.toUInt64 := by
  have hmove : t.Computes ar (some t.scratchGpr) _ t.scratchGpr _ :=
    (computes_movImm t.hasGpr_scratch offset).hide
  refine ⟨?_, hmove.clean, fun s => ?_⟩
  · have hscratch : t.scratchGpr = .r11 := by simp [scratchGpr, ht]
    have hbase : ¬ 15 < base.num := UInt8.not_lt.mpr (hb.x86 ht)
    simp [Accessible, ht, X86.checkAddress, hscratch, hbase, Gpr.r11, Gpr.rsp]
  · obtain ⟨u, hu, hsets⟩ := hmove.run s
    have hkept := hsets.keeps.reg base fun h => hne (Option.some.inj h)
    have hnone : (0 : Int64).toUInt64 = 0 := rfl
    refine ⟨u, hu, hsets.keeps, ?_⟩
    simp [Core.address, hsets.value, hkept, hnone]

theorem forms_sum (ht : t.isX86 = false) (hb : t.HasGpr base) (hne : base ≠ t.scratchGpr)
    (offset : Int64) :
    t.Forms ar { base := t.scratchGpr }
      (t.pick (.movImm t.scratchGpr offset) (.movImm t.scratchGpr offset.toUInt64) ++
        [.arm (.add t.scratchGpr base t.scratchGpr)]) fun s =>
          (t.core ar).reg s base + offset.toUInt64 := by
  have hsum : t.Computes ar (some t.scratchGpr) _ t.scratchGpr fun s =>
      (t.core ar).reg s base + offset.toUInt64 :=
    (computes_movImm t.hasGpr_scratch offset).hide.append (.inr rfl)
      (computes_armAdd ht t.hasGpr_scratch hb t.hasGpr_scratch).hide fun s u hu => by
        rw [hu.value, hu.keeps.reg base fun h => hne (Option.some.inj h)]
  refine ⟨?_, hsum.clean, fun s => ?_⟩
  · simp [Accessible, ht, t.hasGpr_scratch]
  · obtain ⟨u, hu, hsets⟩ := hsum.run s
    have hnone : (0 : Int64).toUInt64 = 0 := rfl
    refine ⟨u, hu, hsets.keeps, ?_⟩
    simp [Core.address, hsets.value, hnone]

/-- An index register stands for a large offset on x86-64, and a sum in the scratch register for
one on AArch64, where immediates are not negative. -/
theorem forms_offsetAddress (hb : t.HasGpr base) (hne : base ≠ t.scratchGpr) (offset : Int64) :
    t.Forms ar (t.offsetAddress base offset).1 (t.offsetAddress base offset).2 fun s =>
      (t.core ar).reg s base + offset.toUInt64 := by
  cases ht : t.isX86 with
  | true =>
    by_cases hfit : X86.fitsInt32 offset
    · have hcode : t.offsetAddress base offset = (.past base offset.toInt32, []) := by
        simp [offsetAddress, ht, hfit]
      exact hcode ▸ forms_near hb hne hfit
    · have hcode : t.offsetAddress base offset =
          ({ base, index := some ⟨t.scratchGpr, 1⟩ }, t.pick (.movImm t.scratchGpr offset)
            (.movImm t.scratchGpr offset.toUInt64)) := by
        simp [offsetAddress, pick, ht, hfit]
      exact hcode ▸ forms_indexed ht hb hne offset
  | false =>
    by_cases hfit : (X86.fitsInt32 offset && 0 ≤ offset) = true
    · have hcode : t.offsetAddress base offset = (.past base offset.toInt32, []) := by
        simp only [offsetAddress, ht, Bool.false_eq_true, if_false, if_pos hfit]
      exact hcode ▸ forms_near hb hne (Bool.and_eq_true_iff.mp hfit).1
    · have hcode : t.offsetAddress base offset =
          ({ base := t.scratchGpr }, t.pick (.movImm t.scratchGpr offset)
            (.movImm t.scratchGpr offset.toUInt64) ++
              [.arm (.add t.scratchGpr base t.scratchGpr)]) := by
        simp only [offsetAddress, ht, Bool.false_eq_true, if_false, if_neg hfit, pick]
        rfl
      exact hcode ▸ forms_sum ht hb hne offset

end Target

end JitGemm
