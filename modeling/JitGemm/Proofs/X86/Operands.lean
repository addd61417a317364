import JitGemm.Proofs.Code.Resolution
import JitGemm.Proofs.X86.Decode

/-!
# Reading operands back

The decoder reads back the operands that the encoder writes, whatever bytes follow: words and
displacements, then addresses, then ModRM with all that belongs to it.
-/

namespace JitGemm.X86

open Code (le32 le64 word32)

-- ---------------------------------------------------------------------------
-- Words
-- ---------------------------------------------------------------------------

theorem readInt32_le32 (n : Int32) (rest : List UInt8) :
    readInt32 (le32 n.toUInt32 ++ rest) = some (n, rest) := by
  simp [le32, readInt32]

theorem word64_halves (w : UInt64) :
    w.toUInt32.toUInt64 ||| (w >>> 32).toUInt32.toUInt64 <<< 32 = w := by
  have hbits : (w.toUInt32.toUInt64 ||| (w >>> 32).toUInt32.toUInt64 <<< 32).toBitVec =
      (w.toBitVec.setWidth 32).setWidth 64 |||
        ((w.toBitVec >>> 32).setWidth 32).setWidth 64 <<< 32 := rfl
  apply UInt64.toBitVec_inj.mp
  rw [hbits]
  apply BitVec.eq_of_getLsbD_eq
  intro i hi
  simp only [BitVec.getLsbD_or, BitVec.getLsbD_setWidth, BitVec.getLsbD_shiftLeft,
    BitVec.getLsbD_ushiftRight]
  by_cases h : i < 32
  · simp [h, hi]
  · have hhigh : i - 32 < 32 := by omega
    simp [h, hhigh, Nat.not_lt.mp h, hi, BitVec.getLsbD_eq_getElem]
    omega

theorem int8Byte_inverse {n : Int32} (h : fitsInt8 n) : (int8Byte n).toInt8.toInt32 = n := by
  have hcut : (int8Byte n).toInt8 = n.toInt8 := by
    apply Int8.toBitVec_inj.mp
    exact (BitVec.signExtend_eq_setWidth_of_le n.toBitVec (by decide : 8 ≤ 32)).symm
  simp only [fitsInt8, Bool.and_eq_true, decide_eq_true_eq, Int32.le_iff_toInt_le] at h
  have hlo : (-128 : Int32).toInt = -128 := by decide
  have hhi : (127 : Int32).toInt = 127 := by decide
  apply Int32.toInt_inj.mp
  rw [hcut, Int8.toInt_toInt32, Int32.toInt_toInt8, Int.bmod_eq_of_le] <;> omega

theorem toInt32_inverse {n : Int64} (h : fitsInt32 n) : n.toInt32.toInt64 = n := by
  simp only [fitsInt32, Bool.and_eq_true, decide_eq_true_eq, Int64.le_iff_toInt_le] at h
  have hlo : (-2147483648 : Int64).toInt = -2147483648 := by decide
  have hhi : (2147483647 : Int64).toInt = 2147483647 := by decide
  apply Int64.toInt_inj.mp
  rw [Int32.toInt_toInt64, Int64.toInt_toInt32, Int.bmod_eq_of_le] <;> omega

theorem toUInt32_toInt32 (n : Int64) : n.toInt32.toUInt32 = n.toUInt64.toUInt32 := by
  apply UInt32.toBitVec_inj.mp
  exact BitVec.signExtend_eq_setWidth_of_le n.toBitVec (by decide : 32 ≤ 64)

theorem readInt8_int8Byte {n : Int32} (h : fitsInt8 n) (rest : List UInt8) :
    readInt8 (int8Byte n :: rest) = some (n, rest) := by
  simp [readInt8, int8Byte_inverse h]

-- ---------------------------------------------------------------------------
-- Fields of a byte
-- ---------------------------------------------------------------------------

/-- A property of the bytes below a bound holds once it holds of each of them. -/
theorem forall_byte {P : UInt8 → Prop} {m : Nat} (h : ∀ i : Fin m, P (UInt8.ofNat i)) {n : UInt8}
    (hn : n.toNat < m) : P n := by
  simpa using h ⟨n.toNat, hn⟩

theorem low3_lt (n : UInt8) : (low3 n).toNat < 8 := by
  have := Nat.and_le_right (n := n.toNat) (m := 7)
  simp [low3]
  omega

/-- Three fields of two, three and three bits: the shape of ModRM and of SIB. -/
theorem fields (mode : UInt8) (hmode : mode.toNat < 4) (a b : UInt8) :
    let byte := mode <<< 6 ||| low3 a <<< 3 ||| low3 b
    byte >>> 6 = mode ∧ byte >>> 3 &&& 7 = low3 a ∧ byte &&& 7 = low3 b := by
  have all : ∀ m : Fin 4, ∀ i j : Fin 8,
      let byte := UInt8.ofNat m <<< 6 ||| UInt8.ofNat i <<< 3 ||| UInt8.ofNat j
      byte >>> 6 = UInt8.ofNat m ∧ byte >>> 3 &&& 7 = UInt8.ofNat i ∧
        byte &&& 7 = UInt8.ofNat j := by decide +kernel
  simpa using all ⟨mode.toNat, hmode⟩ ⟨_, low3_lt a⟩ ⟨_, low3_lt b⟩

theorem extend_low3 {n : UInt8} (h : n ≤ 15) : extend (bit3 n) (low3 n) = n :=
  forall_byte (m := 16) (P := fun n => extend (bit3 n) (low3 n) = n) (by decide +kernel)
    (Nat.lt_succ_of_le h)

/-- A register number of five bits, from its fields. -/
theorem extend_wide {n : UInt8} (h : n ≤ 31) :
    extend (bit3 n) (low3 n) + (if bit4 n = false then 0 else 16) = n :=
  forall_byte (m := 32)
    (P := fun n => extend (bit3 n) (low3 n) + (if bit4 n = false then 0 else 16) = n)
    (by decide +kernel) (Nat.lt_succ_of_le h)

theorem and_15 {n : UInt8} (h : n ≤ 15) : n &&& 0xF = n :=
  forall_byte (m := 16) (P := fun n => n &&& 0xF = n) (by decide +kernel) (Nat.lt_succ_of_le h)

theorem extend_vvvv {n : UInt8} (h : n ≤ 31) :
    (n &&& 0xF) + (if bit4 n = false then 0 else 16) = n :=
  forall_byte (m := 32) (P := fun n => (n &&& 0xF) + (if bit4 n = false then 0 else 16) = n)
    (by decide +kernel) (Nat.lt_succ_of_le h)

-- ---------------------------------------------------------------------------
-- Addresses
-- ---------------------------------------------------------------------------

/-- What an accepted address consists of. -/
theorem checkAddress_ok {a : Address} (h : checkAddress a = .ok ()) :
    a.base.num ≤ 15 ∧ ∀ i, a.index = some i →
      i.reg ≠ .rsp ∧ i.reg.num ≤ 15 ∧ (i.scale = 1 ∨ i.scale = 2 ∨ i.scale = 4 ∨ i.scale = 8) := by
  unfold checkAddress at h
  split at h
  · rename_i i hindex
    split at h
    · cases h
    · rename_i hstack
      split at h
      · cases h
      · rename_i hscale
        split at h
        · cases h
        · rename_i hnum
          simp only [Bool.not_eq_true, Bool.not_eq_false', Bool.or_eq_true, beq_iff_eq, or_assoc]
            at hscale
          simp only [Bool.or_eq_true, decide_eq_true_eq, not_or] at hnum
          refine ⟨UInt8.not_lt.mp hnum.1, ?_⟩
          intro i' hi'
          obtain rfl : i = i' := Option.some.inj (hindex.symm.trans hi')
          exact ⟨hstack, UInt8.not_lt.mp hnum.2, hscale⟩
  · rename_i hindex
    split at h
    · cases h
    · rename_i hnum
      exact ⟨UInt8.not_lt.mp hnum, by simp [hindex]⟩

theorem dispMode_lt (a : Address) (short : Bool) : (dispMode a short).toNat < 3 := by
  unfold dispMode
  split
  · decide
  · split <;> decide

theorem readDisp_dispBytes (a : Address) {short : Bool} {unit : Int32} (hunit : short → unit = 1)
    (rest : List UInt8) :
    readDisp (dispMode a short) unit (dispBytes a (dispMode a short) ++ rest) =
      some (a.disp, rest) := by
  unfold dispMode
  split
  · rename_i h
    simp only [Bool.and_eq_true, beq_iff_eq] at h
    simp [readDisp, dispBytes, h.1]
  · split
    · rename_i h
      rw [Bool.and_eq_true] at h
      simp [readDisp, dispBytes, readInt8_int8Byte h.2, hunit h.1]
    · simp [readDisp, dispBytes, readInt32_le32]

/-- Without displacement the base is not of number 5 or 13. -/
theorem low3_base_of_dispMode {a : Address} {short : Bool} (h : dispMode a short = 0) :
    low3 a.base.num ≠ 5 := by
  unfold dispMode at h
  split at h
  · rename_i hbase
    simp only [Bool.and_eq_true, bne_iff_ne, ne_eq] at hbase
    exact hbase.2
  · split at h <;> cases h

theorem scaleBits_lt (s : UInt8) : (scaleBits s).toNat < 4 := by
  unfold scaleBits
  repeat' split
  all_goals decide

theorem shift_scaleBits {s : UInt8} (h : s = 1 ∨ s = 2 ∨ s = 4 ∨ s = 8) :
    (1 : UInt8) <<< scaleBits s = s := by
  rcases h with rfl | rfl | rfl | rfl <;> decide

/-- No index of number 4 is accepted: that field says that there is none. -/
theorem index_ne_four {r : Gpr} (h : r ≠ .rsp) : r.num ≠ 4 := by
  rintro hnum
  exact h (congrArg Gpr.mk hnum)

section

variable {a : Address} {e : Extension} {short : Bool} {unit : Int32}

theorem readAddress_index (ha : checkAddress a = .ok ()) (hb : e.b = extB (.mem a))
    (hx : e.x = extX (.mem a)) {i : Index} (hi : a.index = some i) (hunit : short → unit = 1)
    (rest : List UInt8) :
    readAddress e unit (dispMode a short) 4
        (sib a ++ dispBytes a (dispMode a short) ++ rest) = some (a, rest) := by
  obtain ⟨hbase, hindex⟩ := checkAddress_ok ha
  obtain ⟨hstack, hreg, hscale⟩ := hindex i hi
  obtain ⟨hs, hr, hm⟩ := fields (scaleBits i.scale) (scaleBits_lt i.scale) i.reg.num a.base.num
  have hnum : extend e.x (low3 i.reg.num) = i.reg.num := by
    simp [hx, extX, hi, extend_low3 hreg]
  have hbnum : extend e.b (low3 a.base.num) = a.base.num := by rw [hb, extB, extend_low3 hbase]
  have hmode : ¬ (dispMode a short = 0 ∧ low3 a.base.num = 5) := by
    rintro ⟨h, h'⟩
    exact low3_base_of_dispMode h h'
  have heta : ({ base := a.base, index := some i, disp := a.disp } : Address) = a := by
    rw [← hi]
  simp only [readAddress, sib, hi, List.cons_append, List.nil_append, ↓reduceIte, hs, hr, hm,
    hnum, hbnum, hmode, index_ne_four hstack, shift_scaleBits hscale,
    readDisp_dispBytes a hunit, Option.map_some, heta]

theorem readAddress_base (ha : checkAddress a = .ok ()) (hb : e.b = extB (.mem a))
    (hx : e.x = extX (.mem a)) (hi : a.index = none) (hunit : short → unit = 1)
    (rest : List UInt8) :
    readAddress e unit (dispMode a short) (low3 a.base.num)
        (sib a ++ dispBytes a (dispMode a short) ++ rest) = some (a, rest) := by
  obtain ⟨hbase, -⟩ := checkAddress_ok ha
  have hbnum : extend e.b (low3 a.base.num) = a.base.num := by rw [hb, extB, extend_low3 hbase]
  have hnone : extend e.x (low3 4) = 4 := by
    rw [hx, extX, hi]
    rfl
  have hmode : ¬ (dispMode a short = 0 ∧ low3 a.base.num = 5) := by
    rintro ⟨h, h'⟩
    exact low3_base_of_dispMode h h'
  have heta : ({ base := a.base, disp := a.disp } : Address) = a := by
    rcases a with ⟨base, index, disp⟩
    subst hi
    rfl
  by_cases h : low3 a.base.num = 4
  · -- a byte that says that there is no index
    obtain ⟨-, hr, hm⟩ := fields 0 (by decide) 4 a.base.num
    rw [show (0 : UInt8) <<< 6 ||| low3 4 <<< 3 = 0x20 from rfl] at hr hm
    rw [h] at hbnum hr hm
    simp only [readAddress, sib, hi, h, beq_self_eq_true, List.cons_append, List.nil_append,
      ↓reduceIte, hr, hm, hnone, hbnum, readDisp_dispBytes a hunit, Option.map_some, heta]
    simp
  · simp only [readAddress, sib, hi, h, beq_iff_eq, ↓reduceIte, List.nil_append, hmode, hbnum,
      readDisp_dispBytes a hunit, Option.map_some, heta]

theorem readAddress_memBytes (ha : checkAddress a = .ok ()) (hb : e.b = extB (.mem a))
    (hx : e.x = extX (.mem a)) (hunit : short → unit = 1) (rest : List UInt8) :
    readAddress e unit (dispMode a short)
        (low3 (if a.index.isSome || low3 a.base.num == 4 then 4 else a.base.num))
        (sib a ++ dispBytes a (dispMode a short) ++ rest) = some (a, rest) := by
  cases hi : a.index with
  | some i =>
    simp only [Option.isSome_some, Bool.true_or, ↓reduceIte]
    exact readAddress_index ha hb hx hi hunit rest
  | none =>
    have hrm : low3 (if (none : Option Index).isSome || low3 a.base.num == 4 then 4
        else a.base.num) = low3 a.base.num := by
      by_cases h : low3 a.base.num = 4
      · simp only [h, Option.isSome_none, beq_self_eq_true, Bool.or_true, ↓reduceIte]
        rfl
      · simp [h]
    rw [hrm]
    exact readAddress_base ha hb hx hi hunit rest

end

/-- An operand that the form can name, with the bits that the prefix says about it. -/
def Extension.Names (e : Extension) (wide : Bool) : Rm → Prop
  | .reg n => e.b = bit3 n ∧ if wide then n ≤ 31 ∧ e.x = bit4 n else n ≤ 15
  | .mem a => checkAddress a = .ok () ∧ e.b = extB (.mem a) ∧ e.x = extX (.mem a)

theorem readRm_rmBytes {e : Extension} {wide short : Bool} {rm : Rm} {unit : Int32} (reg : UInt8)
    (h : e.Names wide rm) (hunit : short → unit = 1) (rest : List UInt8) :
    readRm wide e unit (rmBytes reg rm short ++ rest) = some (low3 reg, rm, rest) := by
  cases rm with
  | reg n =>
    obtain ⟨hb, hn⟩ := h
    obtain ⟨hs, hr, hm⟩ := fields 3 (by decide) reg n
    simp only [rmBytes, modrm, List.cons_append, List.nil_append, readRm, hs, hr, hm, hb,
      ↓reduceIte]
    cases wide with
    | false => simp [extend_low3 hn]
    | true =>
      obtain ⟨hn, hx⟩ := hn
      have hwide := extend_wide hn
      cases hbit : bit4 n <;> simp_all
  | mem a =>
    obtain ⟨ha, hb, hx⟩ := h
    have hmode := dispMode_lt a short
    obtain ⟨hs, hr, hm⟩ := fields (dispMode a short) (by omega) reg
      (if a.index.isSome || low3 a.base.num == 4 then 4 else a.base.num)
    have hthree : dispMode a short ≠ 3 := by
      rintro h
      rw [h] at hmode
      exact absurd hmode (by decide)
    simp only [rmBytes, memBytes, modrm, List.cons_append, List.nil_append, List.append_assoc,
      readRm, hs, hr, hm, hthree, ↓reduceIte]
    rw [← List.append_assoc, readAddress_memBytes ha hb hx hunit]
    rfl

end JitGemm.X86
