import JitGemm.Proofs.Scalar.Operations

/-!
# Products with constants

A constant is multiplied by its magnitude first: by one shift where that is a power of two, and bit
by bit below the highest one otherwise. The sign comes last, so that the least constant, whose
magnitude only an unsigned word holds, is no exception.
-/

namespace JitGemm

variable {ar : Arith UInt32} {t : Target} {r : Gpr}

-- ---------------------------------------------------------------------------
-- Bits
-- ---------------------------------------------------------------------------

theorem mod_two_pow_succ (m bit : Nat) :
    m % 2 ^ (bit + 1) = (if m.testBit bit then 2 ^ bit else 0) + m % 2 ^ bit := by
  rw [Nat.pow_succ, Nat.mod_mul, Nat.testBit_eq_decide_div_mod_eq]
  rcases Nat.mod_two_eq_zero_or_one (m / 2 ^ bit) with h | h <;> simp [h, Nat.add_comm]

/-- Bits below `bit` and a pending shift: what the register holds moves up past all of them, and the
initial value, which is in `c`, enters at every set bit. -/
theorem Target.computes_mulBits (hr : t.HasGpr r) {c : Gpr} (hc : t.HasGpr c) (hne : c ≠ r)
    (m : Nat) {bit pending : Nat} (hbound : bit + pending ≤ 63) :
    t.Computes ar none (t.mulBits r c m bit pending) r fun s =>
      (t.core ar).reg s r * UInt64.ofNat (2 ^ (bit + pending)) +
        (t.core ar).reg s c * UInt64.ofNat (m % 2 ^ bit) := by
  induction bit generalizing pending with
  | zero =>
    refine (computes_shiftLeft hr (by omega)).congr fun s => ?_
    simp [Nat.mod_one]
  | succ bit ih =>
    have hmod := mod_two_pow_succ m bit
    unfold mulBits
    split
    · rename_i hbit
      -- a set bit ends a shift: the initial value is added and then moves up with the rest
      have hshift : t.Computes ar none (t.shiftLeft r (pending + 1)) r _ :=
        computes_shiftLeft hr (by omega)
      have hsum := hshift.append (.inl rfl) (computes_add hr hc) fun s u hu => by
        rw [hu.value, hu.others c hne (by simp)]
      refine hsum.append (.inl rfl) (ih (by omega)) fun s u hu => ?_
      have hpow : 2 ^ (pending + 1) * 2 ^ bit = 2 ^ (bit + 1 + pending) := by
        rw [← Nat.pow_add]
        congr 1
        omega
      rw [hu.value, hu.others c hne (by simp), hmod, if_pos hbit, Nat.add_zero bit,
        UInt64.ofNat_add, ← hpow, UInt64.ofNat_mul, UInt64.mul_add, UInt64.add_mul,
        UInt64.mul_assoc, UInt64.add_assoc]
    · rename_i hbit
      refine (@ih (pending + 1) (by omega)).congr fun s => ?_
      have hcount : bit + (pending + 1) = bit + 1 + pending := by omega
      rw [hmod, if_neg hbit, Nat.zero_add, hcount]

-- ---------------------------------------------------------------------------
-- Magnitudes and signs
-- ---------------------------------------------------------------------------

theorem natAbs_toInt_le (k : Int64) : k.toInt.natAbs ≤ 2 ^ 63 := by
  have hlo := k.le_toInt
  have hhi := k.toInt_lt
  omega

theorem log2_natAbs_toInt {k : Int64} (hk : k.toInt.natAbs ≠ 0) : k.toInt.natAbs.log2 ≤ 63 := by
  have hle := natAbs_toInt_le k
  have hlt : k.toInt.natAbs.log2 < 64 := (Nat.log2_lt hk).mpr (by omega)
  omega

/-- A constant is its magnitude with its sign. -/
theorem toUInt64_eq_natAbs (k : Int64) :
    k.toUInt64 = if k < 0 then -UInt64.ofNat k.toInt.natAbs else UInt64.ofNat k.toInt.natAbs := by
  have hbits : k.toUInt64.toBitVec = BitVec.ofInt 64 k.toInt := (BitVec.ofInt_toInt).symm
  have hlt : k < 0 ↔ k.toInt < 0 := Int64.lt_iff_toInt_lt
  apply UInt64.toBitVec_inj.mp
  rw [hbits]
  split
  · rename_i hneg
    have habs : k.toInt = -(k.toInt.natAbs : Int) := by
      rw [hlt] at hneg
      omega
    rw [UInt64.toBitVec_neg, UInt64.toBitVec_ofNat', ← BitVec.ofInt_natCast, ← BitVec.ofInt_neg,
      ← habs]
  · rename_i hpos
    have habs : k.toInt = (k.toInt.natAbs : Int) := by
      rw [hlt] at hpos
      omega
    rw [UInt64.toBitVec_ofNat', ← BitVec.ofInt_natCast, ← habs]

/-- The highest bit of a number, and what is below it. -/
theorem log2_split {m : Nat} (hm : m ≠ 0) : 2 ^ m.log2 + m % 2 ^ m.log2 = m := by
  have hhigh : m / 2 ^ m.log2 = 1 := by
    refine Nat.div_eq_of_lt_le ?_ ?_
    · simpa using Nat.log2_self_le hm
    · rw [← Nat.pow_succ']
      exact Nat.lt_log2_self
  have hsum := Nat.div_add_mod m (2 ^ m.log2)
  rwa [hhigh, Nat.mul_one] at hsum

namespace Target

/-- A product with a magnitude, which is not zero. -/
def mulMagnitude (t : Target) (r : Gpr) (m : Nat) : List Emission :=
  if m = 1 <<< m.log2 then t.shiftLeft r m.log2
  else t.pick (.mov t.scratchGpr r) (.mov t.scratchGpr r) ++ t.mulBits r t.scratchGpr m m.log2 0

theorem computes_mulMagnitude (hr : t.HasGpr r) (hne : r ≠ t.scratchGpr) {m : Nat} (hm : m ≠ 0)
    (hlog : m.log2 ≤ 63) :
    t.Computes ar (some t.scratchGpr) (t.mulMagnitude r m) r fun s =>
      (t.core ar).reg s r * UInt64.ofNat m := by
  unfold mulMagnitude
  split
  · rename_i hpow
    rw [Nat.one_shiftLeft] at hpow
    refine (computes_shiftLeft hr hlog).hide.congr fun s => ?_
    rw [← hpow]
  · have hcopy : t.Computes ar none _ t.scratchGpr _ := computes_mov t.hasGpr_scratch hr
    have hbits : t.Computes ar none (t.mulBits r t.scratchGpr m m.log2 0) r _ :=
      computes_mulBits hr t.hasGpr_scratch hne.symm m (by omega)
    refine hcopy.hide.append (.inr rfl) hbits.hide fun s u hu => ?_
    have hkept := hu.others r hne fun h => hne (Option.some.inj h)
    rw [hu.value, hkept, ← UInt64.mul_add, ← UInt64.ofNat_add, Nat.add_zero, log2_split hm]

theorem computes_mulConst (hr : t.HasGpr r) (hne : r ≠ t.scratchGpr) (factor : Int64) :
    t.Computes ar (some t.scratchGpr) (t.mulConst r factor) r fun s =>
      (t.core ar).reg s r * factor.toUInt64 := by
  have hsign := toUInt64_eq_natAbs factor
  by_cases hm : factor.toInt.natAbs = 0
  · have hcode : t.mulConst r factor = t.pick (.xor r r) (.mov r ⟨31⟩) := if_pos hm
    rw [hcode]
    refine (computes_zero hr).hide.congr fun s => ?_
    simp [hsign, hm]
  · have hcode : t.mulConst r factor = t.mulMagnitude r factor.toInt.natAbs ++
        if factor < 0 then t.pick (.neg r) (.neg r r) else [] := if_neg hm
    have hproduct : t.Computes ar _ _ r _ :=
      computes_mulMagnitude hr hne hm (log2_natAbs_toInt hm)
    rw [hcode]
    split
    · rename_i hneg
      refine hproduct.append (.inl rfl) (computes_neg hr).hide fun s u hu => ?_
      rw [hu.value, hsign, if_pos hneg, UInt64.mul_neg]
    · rename_i hpos
      rw [List.append_nil]
      refine hproduct.congr fun s => ?_
      rw [hsign, if_neg hpos]

end Target

-- ---------------------------------------------------------------------------
-- All constants
-- ---------------------------------------------------------------------------

/-- Multiplying by a constant emits code that leaves the product, modulo 2^64, in the register. No
other register changes but the scratch register, and neither does memory. -/
theorem mulConst_multiplies (ar : Arith UInt32) (g : Generator) {r : Gpr}
    (hr : g.table.target.HasGpr r) (hne : r ≠ g.table.target.scratchGpr) (factor : Int64) :
    (g.scalar (.mulConst r factor)).buffer.error = g.buffer.error ∧
      g.Performs ar (g.scalar (.mulConst r factor)) fun s s' =>
        (g.table.target.core ar).Sets (some g.table.target.scratchGpr) r
          ((g.table.target.core ar).reg s r * factor.toUInt64) s s' :=
  Generator.performs_computes (Target.computes_mulConst hr hne factor)

theorem minus_ten_multiplies :
    let g : Generator := { name := "k", origin := "k", table := ⟨.sysV, .v128, .empty⟩ }
    let code : List UInt8 := [0x49, 0x89, 0xC3, 0x48, 0xC1, 0xE0, 0x02, 0x4C, 0x01, 0xD8,
      0x48, 0xC1, 0xE0, 0x01, 0x48, 0xF7, 0xD8]
    Target.sysV.HasGpr .rax ∧ Gpr.rax ≠ Target.sysV.scratchGpr ∧
      (g.scalar (.mulConst .rax (-10))).buffer.bytes.toList = code ∧
      ∀ (ar : Arith UInt32) (s : X86.Machine), s.gpr .rax = 7 →
        ∃ s', Target.sysV.run? (X86.core ar).step? code s = some s' ∧
          s'.gpr .rax = -70 ∧ s'.gpr .rbx = s.gpr .rbx ∧ s'.mem = s.mem := by
  intro g code
  have hbytes : (g.scalar (.mulConst .rax (-10))).buffer.bytes.toList = code := by decide
  refine ⟨by decide, by decide, hbytes, fun ar s hs => ?_⟩
  obtain ⟨-, emitted, hemitted, hruns⟩ :=
    mulConst_multiplies ar g (r := .rax) (by decide) (by decide) (-10)
  obtain rfl : emitted = code := (hemitted.symm.trans hbytes :)
  obtain ⟨s', hrun, hsets⟩ := hruns s
  refine ⟨s', hrun, hsets.value.trans ?_, hsets.others .rbx (by decide) (by decide), hsets.mem⟩
  show s.gpr .rax * _ = _
  rw [hs]
  decide

end JitGemm
