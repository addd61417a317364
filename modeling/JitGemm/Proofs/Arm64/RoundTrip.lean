import JitGemm.Proofs.Arm64.Machine

/-!
# Reading AArch64 instructions back

A word is the sum of its fixed pattern and of its fields, each at its own place, so the decoder
finds every field as it went in. A negation is read back as a subtraction from the zero register.
-/

namespace JitGemm.Arm64

open Code (le32)

-- ---------------------------------------------------------------------------
-- Sums of fields
-- ---------------------------------------------------------------------------

/-- A field of `n` bits at bit `s`, with zeros in `a` from there down. -/
theorem toNat_or_field {a x : UInt32} (s : UInt32) {n : Nat} (hs : s.toNat < 32)
    (hn : s.toNat + n ≤ 32) (ha : a.toNat % 2 ^ (s.toNat + n) = 0) (hx : x.toNat < 2 ^ n) :
    (a ||| x <<< s).toNat = a.toNat + x.toNat * 2 ^ s.toNat := by
  have hlt : x.toNat * 2 ^ s.toNat < 2 ^ (s.toNat + n) := by
    rw [Nat.pow_add, Nat.mul_comm]
    exact (Nat.mul_lt_mul_left (Nat.two_pow_pos _)).mpr hx
  have hfield : (x <<< s).toNat = x.toNat * 2 ^ s.toNat := by
    rw [UInt32.toNat_shiftLeft, Nat.mod_eq_of_lt hs, Nat.shiftLeft_eq]
    exact Nat.mod_eq_of_lt (Nat.lt_of_lt_of_le hlt (Nat.pow_le_pow_right (by decide) hn))
  rw [toNat_or_low (s.toNat + n) ha (hfield ▸ hlt), hfield]

theorem toNat_gprField_le {r : Gpr} (hr : r.num ≤ 31) : (gprField r).toNat = r.num.toNat :=
  (toNat_gprField r).trans (Nat.mod_eq_of_lt (Nat.lt_succ_of_le hr))

theorem gprAt_field {w : UInt32} {lo : Nat} {r : Gpr} (hr : r.num ≤ 31)
    (h : bits w lo 5 = (gprField r).toNat) : gprAt w lo = r :=
  gprAt_eq hr (h.trans (toNat_gprField_le hr))

theorem vregAt_field {w : UInt32} {lo : Nat} {v : Vreg} (hv : v.num ≤ 31)
    (h : bits w lo 5 = (vregField v).toNat) : vregAt w lo = v :=
  vregAt_eq (h.trans (toNat_vregField hv))

/-- The two lowest fields of a word. The lower one may be a vector register. -/
theorem toNat_low_fields {a t : UInt32} {n : Gpr} (ha : a.toNat % 2 ^ 10 = 0) (hn : n.num ≤ 31)
    (ht : t.toNat < 32) :
    (a ||| gprField n <<< 5 ||| t).toNat = a.toNat + n.num.toNat * 2 ^ 5 + t.toNat := by
  have hn' : n.num.toNat < 32 := Nat.lt_succ_of_le hn
  have hfield := toNat_gprField_le hn
  have hbase := toNat_or_field (a := a) (x := gprField n) 5 (n := 5) (by decide) (by decide)
    (by simpa using ha) (by omega)
  simp only [UInt32.reduceToNat] at hbase
  rw [toNat_or_low 5 (by omega) (by omega), hbase, hfield]

/-- Three registers in a pattern that leaves their fields empty. -/
theorem toNat_three {base d n m : UInt32}
    (hbase : bits base 0 5 = 0 ∧ bits base 5 5 = 0 ∧ bits base 16 5 = 0) (hd : d.toNat < 32)
    (hn : n.toNat < 32) (hm : m.toNat < 32) :
    (base ||| m <<< 16 ||| n <<< 5 ||| d).toNat =
      base.toNat + m.toNat * 2 ^ 16 + n.toNat * 2 ^ 5 + d.toNat := by
  obtain ⟨hbase, hbase', hbase''⟩ := hbase
  unfold bits at hbase hbase' hbase''
  have hlt := base.toNat_lt
  let high := UInt32.ofNat (base.toNat / 2 ^ 21 * 2 ^ 21)
  let low := UInt32.ofNat (base.toNat % 2 ^ 16)
  have hhigh : high.toNat = base.toNat / 2 ^ 21 * 2 ^ 21 := by
    rw [UInt32.toNat_ofNat']
    omega
  have hlow : low.toNat = base.toNat % 2 ^ 16 := by
    rw [UInt32.toNat_ofNat']
    omega
  have hsplit : base = high ||| low := by
    apply UInt32.toNat_inj.mp
    rw [toNat_or_low 21 (by omega) (by omega)]
    omega
  -- the third register lies above `low`, so it is added first
  have horder : base ||| m <<< 16 = high ||| m <<< 16 ||| low := by
    rw [hsplit, UInt32.or_assoc, UInt32.or_comm low, UInt32.or_assoc]
  have hfirst := toNat_or_field (a := high) (x := m) 16 (n := 5) (by decide) (by decide)
    (by simp only [UInt32.reduceToNat]; omega) hm
  simp only [UInt32.reduceToNat] at hfirst
  have hsecond := toNat_or_low (a := high ||| m <<< 16) (b := low) 16 (by omega) (by omega)
  have hthird := toNat_or_field (a := high ||| m <<< 16 ||| low) (x := n) 5 (n := 5) (by decide)
    (by decide) (by simp only [UInt32.reduceToNat]; omega) hn
  simp only [UInt32.reduceToNat] at hthird
  rw [horder, toNat_or_low 5 (by omega) (by omega)]
  omega

theorem bits_three {w base d n m : UInt32}
    (hbase : bits base 0 5 = 0 ∧ bits base 5 5 = 0 ∧ bits base 16 5 = 0) (hd : d.toNat < 32)
    (hn : n.toNat < 32) (hm : m.toNat < 32) (hw : w = base ||| m <<< 16 ||| n <<< 5 ||| d) :
    bits w 21 11 = bits base 21 11 ∧ bits w 10 6 = bits base 10 6 ∧ bits w 0 5 = d.toNat ∧
      bits w 5 5 = n.toNat ∧ bits w 16 5 = m.toNat := by
  have hword := hw ▸ toNat_three hbase hd hn hm
  have hlt := base.toNat_lt
  unfold bits at hbase ⊢
  refine ⟨?_, ?_, ?_, ?_, ?_⟩ <;> omega

-- ---------------------------------------------------------------------------
-- Formats apart
-- ---------------------------------------------------------------------------

theorem Instr.Decodes.of_word {i : Instr} {w : UInt32} (hbytes : i.chunk.bytes = le32 w)
    (h : decodeWord w = some (.plain i.canonical)) : i.Decodes := by
  simp [Decodes, word?, hbytes, le32, h]

/-- The wider of the leading fields has the narrower ones in it. -/
theorem bits_leading (w : UInt32) :
    bits w 26 6 = bits w 22 10 / 2 ^ 4 ∧ bits w 24 8 = bits w 22 10 / 2 ^ 2 ∧
      bits w 23 9 = bits w 22 10 / 2 ∧ bits w 22 10 = bits w 21 11 / 2 := by
  have hw := w.toNat_lt
  unfold bits
  omega

theorem decodeWord_plain {w : UInt32} {k : Nat} (hk : bits w 22 10 = k)
    (hbranch : k / 2 ^ 2 ∉ [0xD6, 0xB4, 0xB5, 0x54] ∧ k / 2 ^ 4 ≠ 0x05) :
    decodeWord w = (decodePair w <|> decodeAccess w <|> decodeImmediate w <|>
      decodeRegisters w).map .plain := by
  obtain ⟨htop, hkind, -⟩ := bits_leading w
  rw [hk] at htop hkind
  obtain ⟨hbranch, hfar⟩ := hbranch
  simp only [List.mem_cons, List.not_mem_nil, or_false, not_or] at hbranch
  have hret : w ≠ 0xD65F03C0 := ne_ret (by omega)
  have hnone : decodeBranch w = none := by
    simp only [decodeBranch, htop, hkind, if_neg hfar]
    split <;> first | rfl | omega
  rw [decodeWord, if_neg hret, hnone]
  rfl

-- ---------------------------------------------------------------------------
-- Three registers
-- ---------------------------------------------------------------------------

theorem bits_rrr {w base : UInt32} {d n m : Gpr}
    (hbase : bits base 0 5 = 0 ∧ bits base 5 5 = 0 ∧ bits base 16 5 = 0) (hd : d.num ≤ 31)
    (hn : n.num ≤ 31) (hm : m.num ≤ 31)
    (hw : w = base ||| gprField m <<< 16 ||| gprField n <<< 5 ||| gprField d) :
    bits w 21 11 = base.toNat / 2 ^ 21 ∧ bits w 10 6 = base.toNat / 2 ^ 10 % 2 ^ 6 ∧
      bits w 5 5 = n.num.toNat ∧ gprAt w 0 = d ∧ gprAt w 5 = n ∧ gprAt w 16 = m := by
  have hhigh : bits base 21 11 = base.toNat / 2 ^ 21 := by
    have hlt := base.toNat_lt
    unfold bits
    omega
  obtain ⟨htop, hmid, hlast, hfirst, hsecond⟩ :=
    bits_three hbase (gprField_lt d) (gprField_lt n) (gprField_lt m) hw
  exact ⟨htop.trans hhigh, hmid, hfirst.trans (toNat_gprField_le hn), gprAt_field hd hlast,
    gprAt_field hn hfirst, gprAt_field hm hsecond⟩

/-- Additions, subtractions, products, and inclusive ors with the zero register. -/
theorem decodeWord_rrr {w base : UInt32} {d n m : Gpr}
    (hbase : base = 0x8B000000 ∨ base = 0xCB000000 ∨ base = 0x9B007C00 ∨
      base = 0xAA000000 ∧ n = .sp)
    (hd : d.num ≤ 31) (hn : n.num ≤ 31) (hm : m.num ≤ 31)
    (hw : w = base ||| gprField m <<< 16 ||| gprField n <<< 5 ||| gprField d) :
    decodeWord w = some (.plain (
      if base = 0x8B000000 then .add d n m
      else if base = 0xCB000000 then .sub d n m
      else if base = 0x9B007C00 then .mul d n m
      else .mov d m)) := by
  have hempty : bits base 0 5 = 0 ∧ bits base 5 5 = 0 ∧ bits base 16 5 = 0 := by
    rcases hbase with rfl | rfl | rfl | ⟨rfl, -⟩ <;> decide
  obtain ⟨htop, hmid, hfirst, hd', hn', hm'⟩ := bits_rrr hempty hd hn hm hw
  obtain ⟨-, -, hwide, hkind⟩ := bits_leading w
  rw [htop] at hkind
  rw [hkind] at hwide
  rcases hbase with rfl | rfl | rfl | ⟨rfl, rfl⟩ <;>
    simp only [UInt32.reduceToNat, Nat.reducePow, Nat.reduceDiv] at htop hkind hwide <;>
    simp only [UInt32.reduceToNat, Nat.reducePow, Nat.reduceDiv, Nat.reduceMod] at hmid <;>
    rw [decodeWord_plain hkind (by decide)] <;>
    simp [decodePair, decodeAccess, decodeImmediate, decodeRegisters, htop, hkind, hwide, hmid,
      hd', hn', hm', hfirst, Gpr.sp]

section

variable {d n m : Gpr}

theorem decodes_add (hd : d.num ≤ 31) (hn : n.num ≤ 31) (hm : m.num ≤ 31) :
    (Instr.add d n m).Decodes :=
  .of_word rfl (decodeWord_rrr (.inl rfl) hd hn hm rfl)

theorem decodes_sub (hd : d.num ≤ 31) (hn : n.num ≤ 31) (hm : m.num ≤ 31) :
    (Instr.sub d n m).Decodes :=
  .of_word rfl (decodeWord_rrr (.inr (.inl rfl)) hd hn hm rfl)

theorem decodes_mul (hd : d.num ≤ 31) (hn : n.num ≤ 31) (hm : m.num ≤ 31) :
    (Instr.mul d n m).Decodes :=
  .of_word rfl (decodeWord_rrr (.inr (.inr (.inl rfl))) hd hn hm rfl)

/-- The patterns of moves and negations name the zero register as their first source. -/
theorem zero_source (base : UInt32) (d m : Gpr) :
    base ||| (0x3E0 : UInt32) ||| gprField m <<< 16 ||| gprField ⟨0⟩ <<< 5 ||| gprField d =
      base ||| gprField m <<< 16 ||| gprField .sp <<< 5 ||| gprField d := by
  have hzero : gprField ⟨0⟩ <<< 5 = 0 := by decide
  have hsp : gprField .sp <<< 5 = 0x3E0 := by decide
  rw [hzero, hsp, UInt32.or_zero, UInt32.or_assoc base, UInt32.or_comm 0x3E0, ← UInt32.or_assoc]

theorem decodes_mov (hd : d.num ≤ 31) (hm : m.num ≤ 31) : (Instr.mov d m).Decodes :=
  .of_word rfl (decodeWord_rrr (.inr (.inr (.inr ⟨rfl, rfl⟩))) hd (by decide) hm
    (zero_source 0xAA000000 d m))

theorem bytes_neg (d m : Gpr) : (Instr.neg d m).chunk.bytes = (Instr.sub d .sp m).chunk.bytes :=
  congrArg le32 (zero_source 0xCB000000 d m)

end

-- ---------------------------------------------------------------------------
-- Immediates
-- ---------------------------------------------------------------------------

theorem decodes_subsImm {d n : Gpr} {imm : UInt32} (hd : d.num ≤ 31) (hn : n.num ≤ 31)
    (himm : imm ≤ 0xFFF) : (Instr.subsImm d n imm).Decodes :=
  .of_word rfl (decodeWord_imm12 (by decide) hd hn himm rfl)

theorem decodes_movSp {d n : Gpr} (hd : d.num ≤ 31) (hn : n.num ≤ 31) :
    (Instr.movSp d n).Decodes :=
  .of_word rfl (decodeWord_imm12 (by decide) hd hn (by decide) rfl)

-- ---------------------------------------------------------------------------
-- Shifts
-- ---------------------------------------------------------------------------

theorem bits_lsl {w s : UInt32} {d n : Gpr} {k : Nat} (hs : s.toNat = k) (hk : k ≤ 63)
    (hd : d.num ≤ 31) (hn : n.num ≤ 31)
    (hw : w = (0xD3400000 : UInt32) ||| ((64 - s) &&& 63) <<< 16 ||| (63 - s) <<< 10 |||
      gprField n <<< 5 ||| gprField d) :
    bits w 22 10 = 0x34D ∧ bits w 10 6 = 63 - k ∧ bits w 16 6 = (64 - k) % 64 ∧
      gprAt w 0 = d ∧ gprAt w 5 = n := by
  have hd' : d.num.toNat < 32 := Nat.lt_succ_of_le hd
  have hn' : n.num.toNat < 32 := Nat.lt_succ_of_le hn
  have hsub : ∀ c : UInt32, s.toNat ≤ c.toNat → (c - s).toNat = c.toNat - s.toNat := fun c hc =>
    UInt32.toNat_sub_of_le _ _ (UInt32.le_iff_toNat_le.mpr hc)
  have hrotate : ((64 - s) &&& 63).toNat = (64 - k) % 64 := by
    have hmask := Nat.and_two_pow_sub_one_eq_mod (64 - s).toNat 6
    rw [hsub 64 (by rw [hs]; exact Nat.le_succ_of_le hk), hs] at hmask
    rw [UInt32.toNat_and, hsub 64 (by rw [hs]; exact Nat.le_succ_of_le hk), hs]
    exact hmask
  have hwidth : (63 - s).toNat = 63 - k := by
    rw [hsub 63 (by rw [hs]; exact hk), hs]
    rfl
  have hfirst := toNat_or_field (a := (0xD3400000 : UInt32)) (x := (64 - s) &&& 63) 16 (n := 6)
    (by decide) (by decide) (by decide) (by omega)
  simp only [UInt32.reduceToNat, hrotate] at hfirst
  have hsecond := toNat_or_field (a := (0xD3400000 : UInt32) ||| ((64 - s) &&& 63) <<< 16)
    (x := 63 - s) 10 (n := 6) (by decide) (by decide)
    (by simp only [UInt32.reduceToNat, hfirst]; omega) (by omega)
  simp only [UInt32.reduceToNat, hfirst, hwidth] at hsecond
  have hword : w.toNat = 0xD3400000 + (64 - k) % 64 * 2 ^ 16 + (63 - k) * 2 ^ 10 +
      n.num.toNat * 2 ^ 5 + d.num.toNat := by
    rw [hw, toNat_low_fields (by omega) hn (gprField_lt d), toNat_gprField_le hd, hsecond]
  refine ⟨?_, ?_, ?_, gprAt_eq hd ?_, gprAt_eq hn ?_⟩
  all_goals
    unfold bits
    omega

theorem decodeWord_lsl {w s : UInt32} {d n : Gpr} {k : Nat} (hs : s.toNat = k) (hk : k ≤ 63)
    (hd : d.num ≤ 31) (hn : n.num ≤ 31)
    (hw : w = (0xD3400000 : UInt32) ||| ((64 - s) &&& 63) <<< 16 ||| (63 - s) <<< 10 |||
      gprField n <<< 5 ||| gprField d) :
    decodeWord w = some (.plain (.lslImm d n (UInt8.ofNat k))) := by
  obtain ⟨hkind, hwidth, hrotate, hd', hn'⟩ := bits_lsl hs hk hd hn hw
  have hshift : 63 - (63 - k) = k := by omega
  have hleft : (k + (64 - k) % 64) % 64 = 0 := by omega
  rw [decodeWord_plain hkind (by decide)]
  simp only [decodePair, decodeAccess, decodeImmediate, hkind, hwidth, hrotate, hd', hn', hshift,
    hleft]
  rfl

theorem decodes_lslImm {d n : Gpr} {k : Nat} (hd : d.num ≤ 31) (hn : n.num ≤ 31) (hk : k ≤ 63) :
    (Instr.lslImm d n (UInt8.ofNat k)).Decodes := by
  have hs : (UInt8.ofNat k &&& 63).toUInt32.toNat = k := by
    rw [UInt8.toNat_toUInt32, UInt8.toNat_and, UInt8.toNat_ofNat', Nat.mod_eq_of_lt (by omega)]
    exact (Nat.and_two_pow_sub_one_eq_mod k 6).trans (Nat.mod_eq_of_lt (by omega))
  exact .of_word rfl (decodeWord_lsl hs hk hd hn rfl)

-- ---------------------------------------------------------------------------
-- Half-words
-- ---------------------------------------------------------------------------

theorem bits_movWide {w base : UInt32} {d : Gpr} {imm : UInt16} {k : Nat} (hk : k < 4)
    (hbase : base.toNat % 2 ^ 23 = 0) (hd : d.num ≤ 31)
    (hw : w = movWide base d imm (UInt8.ofNat (16 * k))) :
    bits w 23 9 = base.toNat / 2 ^ 23 ∧ bits w 21 2 = k ∧ bits w 5 16 = imm.toNat ∧
      gprAt w 0 = d := by
  have hd' : d.num.toNat < 32 := Nat.lt_succ_of_le hd
  have himm := imm.toNat_lt
  have hlt := base.toNat_lt
  have hshift : (UInt8.ofNat (16 * k) / 16).toUInt32.toNat = k := by
    simp only [UInt8.toNat_toUInt32, UInt8.toNat_div, UInt8.toNat_ofNat', UInt8.reduceToNat]
    omega
  have hfirst := toNat_or_field (a := base) (x := (UInt8.ofNat (16 * k) / 16).toUInt32) 21 (n := 2)
    (by decide) (by decide) hbase (by omega)
  simp only [UInt32.reduceToNat, hshift] at hfirst
  have hsecond := toNat_or_field (a := base ||| (UInt8.ofNat (16 * k) / 16).toUInt32 <<< 21)
    (x := imm.toUInt32) 5 (n := 16) (by decide) (by decide)
    (by simp only [UInt32.reduceToNat, hfirst]; omega) (by rw [UInt16.toNat_toUInt32]; exact himm)
  simp only [UInt32.reduceToNat, hfirst, UInt16.toNat_toUInt32] at hsecond
  have hword : w.toNat = base.toNat + k * 2 ^ 21 + imm.toNat * 2 ^ 5 + d.num.toNat := by
    rw [hw, movWide, toNat_or_low 5 (by omega) (gprField_lt d), toNat_gprField_le hd, hsecond]
  refine ⟨?_, ?_, ?_, gprAt_eq hd ?_⟩
  all_goals
    unfold bits
    omega

theorem decodeWord_movWide {w base : UInt32} {d : Gpr} {imm : UInt16} {k : Nat} (hk : k < 4)
    (hbase : base = movzBase ∨ base = movkBase) (hd : d.num ≤ 31)
    (hw : w = movWide base d imm (UInt8.ofNat (16 * k))) :
    decodeWord w = some (.plain (
      if base = movzBase then .movz d imm (UInt8.ofNat (16 * k))
      else .movk d imm (UInt8.ofNat (16 * k)))) := by
  have hlow : base.toNat % 2 ^ 23 = 0 := by rcases hbase with rfl | rfl <;> decide
  obtain ⟨htop, hshift, himm, hd'⟩ := bits_movWide hk hlow hd hw
  obtain ⟨-, -, hhalf, -⟩ := bits_leading w
  rw [htop] at hhalf
  -- the shift reaches into the bits that tell formats apart
  rcases hbase with rfl | rfl <;>
    simp only [movzBase, movkBase, UInt32.reduceToNat, Nat.reducePow, Nat.reduceDiv] at htop hhalf
  · have hkind : bits w 22 10 = 0x34A ∨ bits w 22 10 = 0x34B := by omega
    rcases hkind with hkind | hkind <;> rw [decodeWord_plain hkind (by decide)] <;>
      simp [decodePair, decodeAccess, decodeImmediate, hkind, htop, hshift, himm, hd']
  · have hkind : bits w 22 10 = 0x3CA ∨ bits w 22 10 = 0x3CB := by omega
    rcases hkind with hkind | hkind <;> rw [decodeWord_plain hkind (by decide)] <;>
      simp [decodePair, decodeAccess, decodeImmediate, hkind, htop, hshift, himm, hd', movzBase,
        movkBase]

/-- The shifts of half-word moves count half-words. -/
theorem halfShift {shift : UInt8} (h : shift ∈ [0, 16, 32, 48]) :
    ∃ k < 4, shift = UInt8.ofNat (16 * k) := by
  simp only [List.mem_cons, List.not_mem_nil, or_false] at h
  rcases h with rfl | rfl | rfl | rfl
  · exact ⟨0, by decide, rfl⟩
  · exact ⟨1, by decide, rfl⟩
  · exact ⟨2, by decide, rfl⟩
  · exact ⟨3, by decide, rfl⟩

theorem decodes_movz {d : Gpr} (hd : d.num ≤ 31) (imm : UInt16) {k : Nat} (hk : k < 4) :
    (Instr.movz d imm (UInt8.ofNat (16 * k))).Decodes :=
  .of_word rfl (decodeWord_movWide hk (.inl rfl) hd rfl)

theorem decodes_movk {d : Gpr} (hd : d.num ≤ 31) (imm : UInt16) {k : Nat} (hk : k < 4) :
    (Instr.movk d imm (UInt8.ofNat (16 * k))).Decodes :=
  .of_word rfl (decodeWord_movWide hk (.inr rfl) hd rfl)

-- ---------------------------------------------------------------------------
-- Pairs
-- ---------------------------------------------------------------------------

/-- The multiples of eight bytes that seven signed bits count. -/
def PairOffset (offset : Int32) : Prop :=
  8 ∣ offset.toInt ∧ -512 ≤ offset.toInt ∧ offset.toInt ≤ 504

theorem pairOffsetOk_iff {offset : Int32} : pairOffsetOk offset ↔ PairOffset offset := by
  have hmod : offset % 8 = 0 ↔ (8 : Int) ∣ offset.toInt := by
    rw [← Int32.toInt_inj, Int32.toInt_mod]
    exact (Int.dvd_iff_tmod_eq_zero ..).symm
  simp only [pairOffsetOk, PairOffset, Bool.and_eq_true, decide_eq_true_eq, beq_iff_eq, hmod,
    Int32.le_iff_toInt_le, Int32.reduceToInt, and_assoc]

/-- The field of every offset that has one. -/
theorem pairOffset_count {offset : Int32} (h : PairOffset offset) :
    ∃ j : Fin 128, offset = Int32.ofInt (8 * signed 7 j.val) ∧
      ((offset / 8).toUInt32 &&& 0x7F).toNat = j.val := by
  obtain ⟨hdvd, hlo, hhi⟩ := h
  have all : ∀ j : Fin 128,
      ((Int32.ofInt (8 * signed 7 j.val) / 8).toUInt32 &&& 0x7F).toNat = j.val := by
    decide +kernel
  let j : Fin 128 := ⟨(offset.toInt / 8 % 128).toNat, by omega⟩
  have hcount : 8 * signed 7 j.val = offset.toInt := by
    unfold signed
    split <;> simp only [j] at * <;> omega
  have hj : offset = Int32.ofInt (8 * signed 7 j.val) := by rw [hcount, Int32.ofInt_toInt]
  exact ⟨j, hj, hj ▸ all j⟩

theorem bits_pair {w base t t2 : UInt32} {n : Gpr} {offset : Int32}
    (hbase : base.toNat % 2 ^ 22 = 0) (ht : t.toNat < 32) (ht2 : t2.toNat < 32) (hn : n.num ≤ 31)
    (hoffset : PairOffset offset) (hw : w = pair base t t2 n offset) :
    bits w 22 10 = base.toNat / 2 ^ 22 ∧ Int32.ofInt (8 * signed 7 (bits w 15 7)) = offset ∧
      bits w 0 5 = t.toNat ∧ bits w 10 5 = t2.toNat ∧ gprAt w 5 = n := by
  obtain ⟨⟨j, hj⟩, hcount, hfield⟩ := pairOffset_count hoffset
  have hn' : n.num.toNat < 32 := Nat.lt_succ_of_le hn
  have hlt := base.toNat_lt
  have hhigh := toNat_or_field (a := base) (x := (offset / 8).toUInt32 &&& 0x7F) 15 (n := 7)
    (by decide) (by decide) hbase (by omega)
  simp only [UInt32.reduceToNat, hfield] at hhigh
  have hsecond := toNat_or_field (a := base ||| ((offset / 8).toUInt32 &&& 0x7F) <<< 15) (x := t2)
    10 (n := 5) (by decide) (by decide) (by simp only [UInt32.reduceToNat, hhigh]; omega) ht2
  simp only [UInt32.reduceToNat, hhigh] at hsecond
  have hword : w.toNat = base.toNat + j * 2 ^ 15 + t2.toNat * 2 ^ 10 + n.num.toNat * 2 ^ 5 +
      t.toNat := by
    rw [hw, pair, pairField, if_pos (pairOffsetOk_iff.mpr hoffset),
      toNat_low_fields (by omega) hn ht, hsecond]
  have hbits : bits w 15 7 = j := by
    unfold bits
    omega
  refine ⟨?_, by rw [hbits, hcount], ?_, ?_, gprAt_eq hn ?_⟩
  all_goals
    unfold bits
    omega

section

variable {w base : UInt32} {n : Gpr} {offset : Int32}

/-- The pattern of a pair says which way it goes and how the base moves. -/
theorem decodeWord_gprPair {t t2 : Gpr} (load : Bool) {mode : PairMode}
    (hbase : base.toNat % 2 ^ 22 = 0)
    (hkind : base.toNat / 2 ^ 22 =
      (match mode with | .post => 0x2A2 | .offset => 0x2A4 | .pre => 0x2A6) + load.toNat)
    (ht : t.num ≤ 31) (ht2 : t2.num ≤ 31) (hn : n.num ≤ 31) (hoffset : PairOffset offset)
    (hw : w = pair base (gprField t) (gprField t2) n offset) :
    decodeWord w =
      some (.plain (if load then .ldp t t2 n offset mode else .stp t t2 n offset mode)) := by
  obtain ⟨hword, hoffset', ht', ht2', hn'⟩ :=
    bits_pair hbase (gprField_lt t) (gprField_lt t2) hn hoffset hw
  replace ht' := gprAt_field ht ht'
  replace ht2' := gprAt_field ht2 ht2'
  rw [hkind] at hword
  cases load <;> cases mode <;>
    simp only [Bool.toNat_false, Bool.toNat_true, Nat.reduceAdd] at hword <;>
    rw [decodeWord_plain hword (by decide)] <;>
    simp [decodePair, hword, hoffset', ht', ht2', hn']

theorem decodeWord_vregPair {t t2 : Vreg} (hbase : base = 0x6D400000 ∨ base = 0x6D000000)
    (ht : t.num ≤ 31) (ht2 : t2.num ≤ 31) (hn : n.num ≤ 31) (hoffset : PairOffset offset)
    (hw : w = pair base (vregField t) (vregField t2) n offset) :
    decodeWord w =
      some (.plain (if base = 0x6D400000 then .ldpD t t2 n offset else .stpD t t2 n offset)) := by
  have hlow : base.toNat % 2 ^ 22 = 0 := by rcases hbase with rfl | rfl <;> decide
  obtain ⟨hkind, hoffset', ht', ht2', hn'⟩ :=
    bits_pair hlow (vregField_lt t) (vregField_lt t2) hn hoffset hw
  replace ht' := vregAt_field ht ht'
  replace ht2' := vregAt_field ht2 ht2'
  rcases hbase with rfl | rfl <;>
    simp only [UInt32.reduceToNat, Nat.reducePow, Nat.reduceDiv] at hkind <;>
    rw [decodeWord_plain hkind (by decide)] <;>
    simp [decodePair, hkind, hoffset', ht', ht2', hn']

section

variable {t t2 : Gpr} (ht : t.num ≤ 31) (ht2 : t2.num ≤ 31) (hn : n.num ≤ 31)
  (hoffset : PairOffset offset) (mode : PairMode)
include ht ht2 hn hoffset

theorem decodes_stp : (Instr.stp t t2 n offset mode).Decodes :=
  .of_word rfl (decodeWord_gprPair false (by cases mode <;> decide)
    (by cases mode <;> decide) ht ht2 hn hoffset rfl)

theorem decodes_ldp : (Instr.ldp t t2 n offset mode).Decodes :=
  .of_word rfl (decodeWord_gprPair true (by cases mode <;> decide)
    (by cases mode <;> decide) ht ht2 hn hoffset rfl)

end

section

variable {t t2 : Vreg} (ht : t.num ≤ 31) (ht2 : t2.num ≤ 31) (hn : n.num ≤ 31)
  (hoffset : PairOffset offset)
include ht ht2 hn hoffset

theorem decodes_stpD : (Instr.stpD t t2 n offset).Decodes :=
  .of_word rfl (decodeWord_vregPair (.inr rfl) ht ht2 hn hoffset rfl)

theorem decodes_ldpD : (Instr.ldpD t t2 n offset).Decodes :=
  .of_word rfl (decodeWord_vregPair (.inl rfl) ht ht2 hn hoffset rfl)

end

end

-- ---------------------------------------------------------------------------
-- Loads and stores
-- ---------------------------------------------------------------------------

/-- An offset that fits counts accesses of its size. -/
theorem fitsScaled_count {offset : Int32} {size : Nat} (hsize : size = 8 ∨ size = 16)
    (h : fitsScaled offset (Int32.ofNat size)) :
    ∃ k ≤ 0xFFF, offset = Int32.ofNat (size * k) ∧
      (offset / Int32.ofNat size).toUInt32.toNat = k := by
  simp only [fitsScaled, Bool.and_eq_true, decide_eq_true_eq, beq_iff_eq] at h
  obtain ⟨⟨hlo, hmod⟩, hhi⟩ := h
  have hsizeInt : (Int32.ofNat size).toInt = size := by
    rcases hsize with rfl | rfl <;> rfl
  have hne : offset ≠ Int32.minValue := by
    rintro rfl
    exact absurd hlo (by decide)
  have hdiv := Int32.toInt_div_of_ne_left offset (Int32.ofNat size) hne
  rw [← Int32.toInt_inj, Int32.toInt_mod, hsizeInt] at hmod
  rw [hsizeInt] at hdiv
  rw [Int32.le_iff_toInt_le] at hlo hhi
  have hzero : (0 : Int32).toInt = 0 := rfl
  have hmax : (0xFFF : Int32).toInt = 0xFFF := rfl
  rw [hzero] at hlo hmod
  rw [hmax] at hhi
  rw [Int.tdiv_eq_ediv_of_nonneg hlo] at hdiv
  rw [Int.tmod_eq_emod_of_nonneg hlo] at hmod
  let k := (offset / Int32.ofNat size).toInt.toNat
  have hk : (offset / Int32.ofNat size).toInt = k := by
    refine (Int.toNat_of_nonneg ?_).symm
    rcases hsize with rfl | rfl <;> omega
  refine ⟨k, by omega, ?_, ?_⟩
  · apply Int32.toInt_inj.mp
    rw [Int32.toInt_ofNat_of_lt (by rcases hsize with rfl | rfl <;> omega)]
    rcases hsize with rfl | rfl <;> omega
  · rw [Int32.toNat_toUInt32_of_le (Int32.le_iff_toInt_le.mpr (by rw [hzero, hk]; omega))]
    rfl

theorem bits_scaled {w base t : UInt32} {n : Gpr} {offset : Int32} {size : Nat}
    (hsize : size = 8 ∨ size = 16) (hbase : base.toNat % 2 ^ 22 = 0) (ht : t.toNat < 32)
    (hn : n.num ≤ 31) (hoffset : fitsScaled offset (Int32.ofNat size))
    (hw : w = base ||| scaledField offset (Int32.ofNat size) ||| gprField n <<< 5 ||| t) :
    bits w 22 10 = base.toNat / 2 ^ 22 ∧ Int32.ofNat (size * bits w 10 12) = offset ∧
      bits w 0 5 = t.toNat ∧ gprAt w 5 = n := by
  obtain ⟨k, hk, hcount, hquotient⟩ := fitsScaled_count hsize hoffset
  have hn' : n.num.toNat < 32 := Nat.lt_succ_of_le hn
  have hlt := base.toNat_lt
  have hfield : ((offset / Int32.ofNat size).toUInt32 &&& 0xFFF).toNat = k := by
    rw [UInt32.toNat_and, hquotient]
    exact (Nat.and_two_pow_sub_one_eq_mod k 12).trans (Nat.mod_eq_of_lt (by omega))
  have hhigh := toNat_or_field (a := base) (x := (offset / Int32.ofNat size).toUInt32 &&& 0xFFF) 10
    (n := 12) (by decide) (by decide) hbase (by omega)
  simp only [UInt32.reduceToNat, hfield] at hhigh
  have hword : w.toNat = base.toNat + k * 2 ^ 10 + n.num.toNat * 2 ^ 5 + t.toNat := by
    rw [hw, scaledField, toNat_low_fields (by omega) hn ht, hhigh]
  have hbits : bits w 10 12 = k := by
    unfold bits
    omega
  refine ⟨?_, by rw [hbits, hcount], ?_, gprAt_eq hn ?_⟩
  all_goals
    unfold bits
    omega

section

variable {w base : UInt32} {n : Gpr} {offset : Int32}

theorem decodeWord_access {t : Gpr} (hbase : base = 0xF9400000 ∨ base = 0xF9000000)
    (ht : t.num ≤ 31) (hn : n.num ≤ 31) (hoffset : fitsScaled offset 8)
    (hw : w = base ||| scaledField offset 8 ||| gprField n <<< 5 ||| gprField t) :
    decodeWord w =
      some (.plain (if base = 0xF9400000 then .ldr t n offset else .str t n offset)) := by
  have hlow : base.toNat % 2 ^ 22 = 0 := by rcases hbase with rfl | rfl <;> decide
  obtain ⟨hkind, hoffset', ht', hn'⟩ := bits_scaled (.inl rfl) hlow (gprField_lt t) hn hoffset hw
  replace ht' := gprAt_field ht ht'
  rcases hbase with rfl | rfl <;>
    simp only [UInt32.reduceToNat, Nat.reducePow, Nat.reduceDiv] at hkind <;>
    rw [decodeWord_plain hkind (by decide)] <;>
    simp [decodePair, decodeAccess, hkind, hoffset', ht', hn']

theorem decodeWord_vectorAccess {t : Vreg} (hbase : base = 0x3DC00000 ∨ base = 0x3D800000)
    (ht : t.num ≤ 31) (hn : n.num ≤ 31) (hoffset : fitsScaled offset 16)
    (hw : w = base ||| scaledField offset 16 ||| gprField n <<< 5 ||| vregField t) :
    decodeWord w =
      some (.plain (if base = 0x3DC00000 then .ldrQ t n offset else .strQ t n offset)) := by
  have hlow : base.toNat % 2 ^ 22 = 0 := by rcases hbase with rfl | rfl <;> decide
  obtain ⟨hkind, hoffset', ht', hn'⟩ := bits_scaled (.inr rfl) hlow (vregField_lt t) hn hoffset hw
  replace ht' := vregAt_field ht ht'
  rcases hbase with rfl | rfl <;>
    simp only [UInt32.reduceToNat, Nat.reducePow, Nat.reduceDiv] at hkind <;>
    rw [decodeWord_plain hkind (by decide)] <;>
    simp [decodePair, decodeAccess, hkind, hoffset', ht', hn']

theorem decodes_ldr {t : Gpr} (ht : t.num ≤ 31) (hn : n.num ≤ 31) (h : fitsScaled offset 8) :
    (Instr.ldr t n offset).Decodes :=
  .of_word rfl (decodeWord_access (.inl rfl) ht hn h rfl)

theorem decodes_str {t : Gpr} (ht : t.num ≤ 31) (hn : n.num ≤ 31) (h : fitsScaled offset 8) :
    (Instr.str t n offset).Decodes :=
  .of_word rfl (decodeWord_access (.inr rfl) ht hn h rfl)

theorem decodes_ldrQ {t : Vreg} (ht : t.num ≤ 31) (hn : n.num ≤ 31) (h : fitsScaled offset 16) :
    (Instr.ldrQ t n offset).Decodes :=
  .of_word rfl (decodeWord_vectorAccess (.inl rfl) ht hn h rfl)

theorem decodes_strQ {t : Vreg} (ht : t.num ≤ 31) (hn : n.num ≤ 31) (h : fitsScaled offset 16) :
    (Instr.strQ t n offset).Decodes :=
  .of_word rfl (decodeWord_vectorAccess (.inr rfl) ht hn h rfl)

end

/-- The decoder leaves out loads of one word to all lanes; their fields are where others are. -/
theorem bits_ld1r4s {w : UInt32} {t : Vreg} {n : Gpr} (ht : t.num ≤ 31) (hn : n.num ≤ 31)
    (hw : w = (0x4D40C800 : UInt32) ||| gprField n <<< 5 ||| vregField t) :
    bits w 10 22 = 0x135032 ∧ vregAt w 0 = t ∧ gprAt w 5 = n ∧ decodeWord w = none := by
  have ht' : t.num.toNat < 32 := Nat.lt_succ_of_le ht
  have hn' : n.num.toNat < 32 := Nat.lt_succ_of_le hn
  have hword : w.toNat = 0x4D40C800 + n.num.toNat * 2 ^ 5 + t.num.toNat := by
    rw [hw, toNat_low_fields (by decide) hn (vregField_lt t), toNat_vregField ht]
    rfl
  have hkind : bits w 22 10 = 0x135 := by
    unfold bits
    omega
  have htop : bits w 21 11 = 0x26A := by
    unfold bits
    omega
  obtain ⟨-, -, hhalf, -⟩ := bits_leading w
  rw [hkind] at hhalf
  refine ⟨?_, vregAt_eq ?_, gprAt_eq hn ?_, ?_⟩
  · unfold bits
    omega
  · unfold bits
    omega
  · unfold bits
    omega
  · rw [decodeWord_plain hkind (by decide)]
    simp [decodePair, decodeAccess, decodeImmediate, decodeRegisters, hkind, htop, hhalf]

end JitGemm.Arm64
