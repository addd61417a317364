import JitGemm.Arm64.Encode
import JitGemm.Proofs.X86.Operands

/-!
# Decoding AArch64

A decoder written from the instruction formats, with nothing from the encoder: every format is a
fixed pattern in the high bits of a word, and fields between them. It covers the instructions on
general registers, the pairs, loads and stores, and branches; vector arithmetic is not decoded.
-/

namespace JitGemm.Arm64

open Code (le32 word32 word32_le32)

/-- One decoded instruction. Branches carry their byte distance. -/
inductive Op where
  | plain (i : Instr)
  | b (distance : Int)
  | bCond (cc : Cond) (distance : Int)
  | cbz (t : Gpr) (distance : Int)
  | cbnz (t : Gpr) (distance : Int)
  deriving DecidableEq, Repr

-- ---------------------------------------------------------------------------
-- Fields
-- ---------------------------------------------------------------------------

/-- The `n` bits of a word from bit `lo` up. -/
def bits (w : UInt32) (lo n : Nat) : Nat := w.toNat / 2 ^ lo % 2 ^ n

/-- A field of `n` bits with a sign. -/
def signed (n v : Nat) : Int := if v < 2 ^ (n - 1) then v else v - 2 ^ n

def gprAt (w : UInt32) (lo : Nat) : Gpr := ⟨.ofNat (bits w lo 5)⟩

def vregAt (w : UInt32) (lo : Nat) : Vreg := ⟨.ofNat (bits w lo 5)⟩

-- ---------------------------------------------------------------------------
-- Formats
-- ---------------------------------------------------------------------------

def decodePair (w : UInt32) : Option Instr :=
  let offset := Int32.ofInt (8 * signed 7 (bits w 15 7))
  let general (load : Bool) (mode : PairMode) :=
    if load then Instr.ldp (gprAt w 0) (gprAt w 10) (gprAt w 5) offset mode
    else .stp (gprAt w 0) (gprAt w 10) (gprAt w 5) offset mode
  match bits w 22 10 with
  | 0x2A2 => some (general false .post)
  | 0x2A3 => some (general true .post)
  | 0x2A4 => some (general false .offset)
  | 0x2A5 => some (general true .offset)
  | 0x2A6 => some (general false .pre)
  | 0x2A7 => some (general true .pre)
  | 0x1B4 => some (.stpD (vregAt w 0) (vregAt w 10) (gprAt w 5) offset)
  | 0x1B5 => some (.ldpD (vregAt w 0) (vregAt w 10) (gprAt w 5) offset)
  | _ => none

/-- Accesses with an unsigned offset, which counts in units of the access. -/
def decodeAccess (w : UInt32) : Option Instr :=
  let offset (size : Nat) := Int32.ofNat (size * bits w 10 12)
  match bits w 22 10 with
  | 0x3E4 => some (.str (gprAt w 0) (gprAt w 5) (offset 8))
  | 0x3E5 => some (.ldr (gprAt w 0) (gprAt w 5) (offset 8))
  | 0x0F6 => some (.strQ (vregAt w 0) (gprAt w 5) (offset 16))
  | 0x0F7 => some (.ldrQ (vregAt w 0) (gprAt w 5) (offset 16))
  | _ => none

/-- Immediate forms. A bit field move is decoded where it is a left shift. -/
def decodeImmediate (w : UInt32) : Option Instr :=
  let imm := UInt32.ofNat (bits w 10 12)
  match bits w 22 10 with
  | 0x244 => some (.addImm (gprAt w 0) (gprAt w 5) imm)
  | 0x344 => some (.subImm (gprAt w 0) (gprAt w 5) imm)
  | 0x3C4 => some (.subsImm (gprAt w 0) (gprAt w 5) imm)
  | 0x34D =>
    let shift := 63 - bits w 10 6
    if (shift + bits w 16 6) % 64 = 0 then
      some (.lslImm (gprAt w 0) (gprAt w 5) (UInt8.ofNat shift))
    else none
  | _ =>
    let shift := UInt8.ofNat (16 * bits w 21 2)
    match bits w 23 9 with
    | 0x1A5 => some (.movz (gprAt w 0) (UInt16.ofNat (bits w 5 16)) shift)
    | 0x1E5 => some (.movk (gprAt w 0) (UInt16.ofNat (bits w 5 16)) shift)
    | _ => none

/-- Forms with three registers, without a shift of the last one. An inclusive or with the zero
register is a move. -/
def decodeRegisters (w : UInt32) : Option Instr :=
  match bits w 21 11, bits w 10 6 with
  | 0x458, 0 => some (.add (gprAt w 0) (gprAt w 5) (gprAt w 16))
  | 0x658, 0 => some (.sub (gprAt w 0) (gprAt w 5) (gprAt w 16))
  | 0x550, 0 => if bits w 5 5 = 31 then some (.mov (gprAt w 0) (gprAt w 16)) else none
  | 0x4D8, 31 => some (.mul (gprAt w 0) (gprAt w 5) (gprAt w 16))
  | _, _ => none

def decodeBranch (w : UInt32) : Option Op :=
  if bits w 26 6 = 0x05 then some (.b (4 * signed 26 (bits w 0 26))) else
    let distance := 4 * signed 19 (bits w 5 19)
    match bits w 24 8 with
    | 0xB4 => some (.cbz (gprAt w 0) distance)
    | 0xB5 => some (.cbnz (gprAt w 0) distance)
    | 0x54 =>
      match bits w 0 5 with
      | 0 => some (.bCond .eq distance)
      | 1 => some (.bCond .ne distance)
      | _ => none
    | _ => none

def decodeWord (w : UInt32) : Option Op :=
  if w = 0xD65F03C0 then some (.plain .ret) else
    decodeBranch w <|>
      (decodePair w <|> decodeAccess w <|> decodeImmediate w <|> decodeRegisters w).map .plain

def decode : List UInt8 → Option Op
  | a :: b :: c :: d :: _ => decodeWord (word32 a b c d)
  | _ => none

-- ---------------------------------------------------------------------------
-- Reading instructions back
-- ---------------------------------------------------------------------------

/-- The form in which an instruction is read back. -/
def Instr.canonical : Instr → Instr
  | .movSp d n => .addImm d n 0
  | i => i

def Instr.word? (i : Instr) : Option UInt32 :=
  match i.chunk.bytes with
  | [b0, b1, b2, b3] => some (word32 b0 b1 b2 b3)
  | _ => none

/-- Instructions that the decoder reads back from their word. -/
def Instr.Decodes (i : Instr) : Prop := i.word?.bind decodeWord = some (.plain i.canonical)

instance (i : Instr) : Decidable i.Decodes := inferInstanceAs (Decidable (_ = _))

theorem decode_le32 (w : UInt32) (rest : List UInt8) : decode (le32 w ++ rest) = decodeWord w := by
  simp [le32, decode]

theorem Instr.Decodes.length {i : Instr} (h : i.Decodes) : i.chunk.bytes.length = 4 := by
  unfold Decodes word? at h
  split at h
  · rename_i hbytes
    rw [hbytes]
    rfl
  · cases h

theorem Instr.Decodes.decode {i : Instr} (h : i.Decodes) (rest : List UInt8) :
    decode (i.chunk.bytes ++ rest) = some (.plain i.canonical) := by
  unfold Decodes word? at h
  split at h
  · rename_i hbytes
    rw [hbytes]
    exact h
  · cases h

-- ---------------------------------------------------------------------------
-- Words
-- ---------------------------------------------------------------------------

/-- The words of bytes in little-endian order. -/
def wordsOf : List UInt8 → List UInt32
  | a :: b :: c :: d :: rest => word32 a b c d :: wordsOf rest
  | _ => []

theorem wordsOf_le32 (ws : List UInt32) : wordsOf (ws.flatMap le32) = ws := by
  induction ws with
  | nil => rfl
  | cons w ws ih =>
    rw [List.flatMap_cons]
    exact congrArg₂ List.cons (word32_le32 w) ih

namespace Instr

def words (i : Instr) : List UInt32 := wordsOf i.chunk.bytes

/-- Whatever an instruction is, its bytes are words. -/
theorem bytes_words (i : Instr) : i.chunk.bytes = i.words.flatMap le32 := by
  have hwords : ∃ ws : List UInt32, i.chunk.bytes = ws.flatMap le32 := by
    have hone : ∀ w : UInt32, ∃ ws : List UInt32, le32 w = ws.flatMap le32 := fun w =>
      ⟨[w], by simp⟩
    cases i with
    | movImm d imm => exact ⟨_, rfl⟩
    | _ => exact hone _
  obtain ⟨ws, hws⟩ := hwords
  rw [words, hws, wordsOf_le32]

theorem words_one {i : Instr} {w : UInt32} (h : i.chunk.bytes = le32 w) : i.words = [w] := by
  have hw := wordsOf_le32 [w]
  rwa [List.flatMap_singleton, ← h] at hw

/-- A word that is decoded does not depend on what follows. -/
theorem Decodes.words {i : Instr} (h : i.Decodes) :
    ∃ w, decodeWord w = some (.plain i.canonical) ∧
      ∀ rest, wordsOf (i.chunk.bytes ++ rest) = w :: wordsOf rest := by
  unfold Decodes word? at h
  split at h
  · rename_i hbytes
    exact ⟨_, h, fun rest => by rw [hbytes]; rfl⟩
  · cases h

end Instr

-- ---------------------------------------------------------------------------
-- Faults
-- ---------------------------------------------------------------------------

theorem gprFault_none {r : Gpr} : gprFault r = none ↔ r.num ≤ 31 := by
  rw [gprFault, ite_eq_right_iff, ← UInt8.not_lt]
  simp

theorem vregFault_none {v : Vreg} : vregFault v = none ↔ v.num ≤ 31 := by
  rw [vregFault, ite_eq_right_iff, ← UInt8.not_lt]
  simp

/-- An instruction is at fault where one of its operands is. -/
theorem one_clean {w : UInt32} {faults : List (Option OperandFault)} :
    (one w faults).fault = none ↔ ∀ f ∈ faults, f = none :=
  List.findSome?_eq_none_iff

section

variable {base : UInt32} {d n m : Gpr}

theorem rrr_clean :
    (rrr base d n m).fault = none ↔ d.num ≤ 31 ∧ n.num ≤ 31 ∧ m.num ≤ 31 := by
  simp [rrr, one_clean, gprFault_none]

theorem imm12_clean {imm : UInt32} :
    (imm12 base d n imm).fault = none ↔ imm ≤ 0xFFF ∧ d.num ≤ 31 ∧ n.num ≤ 31 := by
  have himm : immFault imm = none ↔ imm ≤ 0xFFF := by
    rw [immFault, ite_eq_right_iff, ← UInt32.not_lt]
    simp
  simp [imm12, one_clean, gprFault_none, himm]

theorem scaled_clean {t : UInt32} {fault : Option OperandFault} {offset size : Int32} :
    (scaled base t fault n offset size).fault = none ↔
      fault = none ∧ fitsScaled offset size ∧ n.num ≤ 31 := by
  simp [scaled, one_clean, scaledFault, gprFault_none]

end

-- ---------------------------------------------------------------------------
-- Words made of fields
-- ---------------------------------------------------------------------------

/-- A field below what is there already. -/
theorem toNat_or_low {a b : UInt32} (k : Nat) (ha : a.toNat % 2 ^ k = 0) (hb : b.toNat < 2 ^ k) :
    (a ||| b).toNat = a.toNat + b.toNat := by
  have hsplit : a.toNat = 2 ^ k * (a.toNat / 2 ^ k) := by
    have := Nat.div_add_mod a.toNat (2 ^ k)
    omega
  rw [UInt32.toNat_or, hsplit, Nat.two_pow_add_eq_or_of_lt hb]

theorem toNat_gprField (r : Gpr) : (gprField r).toNat = r.num.toNat % 32 := by
  have hmask := Nat.and_two_pow_sub_one_eq_mod r.num.toNat 5
  simpa [gprField] using hmask

theorem gprField_lt (r : Gpr) : (gprField r).toNat < 32 := by
  rw [toNat_gprField]
  exact Nat.mod_lt _ (by decide)

theorem gprAt_eq {w : UInt32} {lo : Nat} {r : Gpr} (hr : r.num ≤ 31)
    (h : bits w lo 5 = r.num.toNat) : gprAt w lo = r := by
  rcases r with ⟨n⟩
  simp [gprAt, h]

theorem toNat_vregField {v : Vreg} (hv : v.num ≤ 31) : (vregField v).toNat = v.num.toNat := by
  have hmask := Nat.and_two_pow_sub_one_eq_mod v.num.toNat 5
  have hlt : v.num.toNat < 32 := Nat.lt_succ_of_le hv
  rw [Nat.mod_eq_of_lt hlt] at hmask
  simpa [vregField] using hmask

theorem vregField_lt (v : Vreg) : (vregField v).toNat < 32 := by
  have hmask := Nat.and_two_pow_sub_one_eq_mod v.num.toNat 5
  have hfield : (vregField v).toNat = v.num.toNat % 2 ^ 5 := by simpa [vregField] using hmask
  rw [hfield]
  exact Nat.mod_lt _ (by decide)

theorem vregAt_eq {w : UInt32} {lo : Nat} {v : Vreg} (h : bits w lo 5 = v.num.toNat) :
    vregAt w lo = v := by
  rcases v with ⟨n⟩
  simp [vregAt, h]

theorem toNat_imm12 (base : UInt32) {imm : UInt32} {d n : Gpr} (hbase : base.toNat % 2 ^ 22 = 0)
    (hd : d.num ≤ 31) (hn : n.num ≤ 31) (himm : imm ≤ 0xFFF) :
    (base ||| (imm &&& 0xFFF) <<< 10 ||| gprField n <<< 5 ||| gprField d).toNat =
      base.toNat + imm.toNat * 2 ^ 10 + n.num.toNat * 2 ^ 5 + d.num.toNat := by
  replace hd : d.num.toNat ≤ 31 := hd
  replace hn : n.num.toNat ≤ 31 := hn
  replace himm : imm.toNat ≤ 4095 := himm
  have hdNat := toNat_gprField d
  have hnNat : (gprField n <<< 5).toNat = n.num.toNat % 32 * 32 % 2 ^ 32 := by
    rw [UInt32.toNat_shiftLeft, toNat_gprField, Nat.shiftLeft_eq]
    rfl
  have himmNat : ((imm &&& 0xFFF) <<< 10).toNat = imm.toNat % 4096 * 1024 % 2 ^ 32 := by
    have hmask : imm.toNat &&& 4095 = imm.toNat % 4096 :=
      Nat.and_two_pow_sub_one_eq_mod imm.toNat 12
    rw [UInt32.toNat_shiftLeft, UInt32.toNat_and, Nat.shiftLeft_eq]
    exact congrArg (· * 1024 % 2 ^ 32) hmask
  have hfirst := toNat_or_low (b := (imm &&& 0xFFF) <<< 10) 22 hbase (by omega)
  have hsecond := toNat_or_low (a := base ||| (imm &&& 0xFFF) <<< 10) (b := gprField n <<< 5) 10
    (by omega) (by omega)
  rw [toNat_or_low 5 (by omega) (by omega)]
  omega

theorem bits_imm12 {w base imm : UInt32} {d n : Gpr} (hbase : base.toNat % 2 ^ 22 = 0)
    (hd : d.num ≤ 31) (hn : n.num ≤ 31) (himm : imm ≤ 0xFFF)
    (hw : w = base ||| (imm &&& 0xFFF) <<< 10 ||| gprField n <<< 5 ||| gprField d) :
    bits w 22 10 = base.toNat / 2 ^ 22 ∧ bits w 24 8 = base.toNat / 2 ^ 24 ∧
      bits w 26 6 = base.toNat / 2 ^ 26 ∧ gprAt w 0 = d ∧ gprAt w 5 = n ∧
      UInt32.ofNat (bits w 10 12) = imm := by
  have hword : w.toNat = base.toNat + imm.toNat * 2 ^ 10 + n.num.toNat * 2 ^ 5 + d.num.toNat :=
    hw ▸ toNat_imm12 base hbase hd hn himm
  have hd' : d.num.toNat ≤ 31 := hd
  have hn' : n.num.toNat ≤ 31 := hn
  have himm' : imm.toNat ≤ 4095 := himm
  have hlt := base.toNat_lt
  have hfield : bits w 10 12 = imm.toNat := by
    unfold bits
    omega
  refine ⟨?_, ?_, ?_, gprAt_eq hd ?_, gprAt_eq hn ?_, by rw [hfield]; exact UInt32.ofNat_toNat⟩
  all_goals
    unfold bits
    omega

theorem decodeWord_imm12 {w base imm : UInt32} {d n : Gpr}
    (hbase : base.toNat ∈ [0x91000000, 0xD1000000, 0xF1000000])
    (hd : d.num ≤ 31) (hn : n.num ≤ 31) (himm : imm ≤ 0xFFF)
    (hw : w = base ||| (imm &&& 0xFFF) <<< 10 ||| gprField n <<< 5 ||| gprField d) :
    decodeWord w = some (.plain (
      if base.toNat = 0x91000000 then .addImm d n imm
      else if base.toNat = 0xD1000000 then .subImm d n imm
      else .subsImm d n imm)) := by
  have hlow : base.toNat % 2 ^ 22 = 0 := by
    simp only [List.mem_cons, List.not_mem_nil, or_false] at hbase
    omega
  obtain ⟨hkind, hcompare, hbranch, hd', hn', himm'⟩ := bits_imm12 hlow hd hn himm hw
  have hret : w ≠ 0xD65F03C0 := by
    rintro rfl
    have hbits : bits 0xD65F03C0 22 10 = 0x359 := by decide
    simp only [List.mem_cons, List.not_mem_nil, or_false] at hbase
    omega
  simp only [List.mem_cons, List.not_mem_nil, or_false] at hbase
  rcases hbase with h | h | h <;> rw [h] at hkind hcompare hbranch <;>
    simp [decodeWord, hret, decodeBranch, hbranch, hcompare, decodePair, decodeAccess,
      decodeImmediate, hkind, hd', hn', himm', h]

theorem decodes_addImm {d n : Gpr} {imm : UInt32} (hd : d.num ≤ 31) (hn : n.num ≤ 31)
    (himm : imm ≤ 0xFFF) : (Instr.addImm d n imm).Decodes := by
  simp only [Instr.Decodes, Instr.word?, Instr.chunk, imm12, one, le32, word32_le32,
    Option.bind_some, Instr.canonical]
  exact decodeWord_imm12 (by decide) hd hn himm rfl

theorem decodes_subImm {d n : Gpr} {imm : UInt32} (hd : d.num ≤ 31) (hn : n.num ≤ 31)
    (himm : imm ≤ 0xFFF) : (Instr.subImm d n imm).Decodes := by
  simp only [Instr.Decodes, Instr.word?, Instr.chunk, imm12, one, le32, word32_le32,
    Option.bind_some, Instr.canonical]
  exact decodeWord_imm12 (by decide) hd hn himm rfl

-- ---------------------------------------------------------------------------
-- Branches
-- ---------------------------------------------------------------------------

/-- The two widths of a distance. -/
theorem signed_emod {n : Nat} (hn : n = 19 ∨ n = 26) {d : Int} (hlo : -2 ^ (n - 1) ≤ d)
    (hhi : d < 2 ^ (n - 1)) : signed n (d % 2 ^ n).toNat = d := by
  unfold signed
  rcases hn with rfl | rfl
  · split <;> omega
  · split <;> omega

theorem decodeWord_b {v : Nat} (hv : v < 2 ^ 26) :
    decodeWord (0x14000000 ||| UInt32.ofNat v) = some (.b (4 * signed 26 v)) := by
  have hfield : (UInt32.ofNat v).toNat = v := by
    rw [UInt32.toNat_ofNat']
    omega
  have hword : ((0x14000000 : UInt32) ||| UInt32.ofNat v).toNat = 0x14000000 + v := by
    rw [toNat_or_low 26 (by decide) (by omega), hfield]
    rfl
  generalize (0x14000000 : UInt32) ||| UInt32.ofNat v = w at hword
  have hret : w ≠ 0xD65F03C0 := by
    rintro rfl
    simp only [UInt32.reduceToNat] at hword
    omega
  have hkind : bits w 26 6 = 5 := by
    unfold bits
    omega
  have hdistance : bits w 0 26 = v := by
    unfold bits
    omega
  simp [decodeWord, hret, decodeBranch, hkind, hdistance]

/-- A distance of 19 bits above a low field of five. -/
theorem toNat_imm19 {base low : UInt32} {v : Nat} (hbase : base.toNat % 2 ^ 24 = 0)
    (hlow : low.toNat < 32) (hv : v < 2 ^ 19) :
    (base ||| low ||| UInt32.ofNat v <<< 5).toNat = base.toNat + v * 2 ^ 5 + low.toNat := by
  have hfield : (UInt32.ofNat v <<< 5).toNat = v * 32 := by
    rw [UInt32.toNat_shiftLeft, UInt32.toNat_ofNat', Nat.shiftLeft_eq]
    have hshift : (UInt32.toNat 5 % 32) = 5 := by decide
    rw [hshift]
    omega
  have hmiddle := toNat_or_low (b := UInt32.ofNat v <<< 5) 24 hbase (by omega)
  rw [UInt32.or_assoc, UInt32.or_comm low, ← UInt32.or_assoc,
    toNat_or_low 5 (by omega) (by omega)]
  omega

theorem bits_imm19 {w base low : UInt32} {v : Nat} (hbase : base.toNat % 2 ^ 24 = 0)
    (hlow : low.toNat < 32) (hv : v < 2 ^ 19) (hw : w = base ||| low ||| UInt32.ofNat v <<< 5) :
    bits w 26 6 = base.toNat / 2 ^ 26 ∧ bits w 24 8 = base.toNat / 2 ^ 24 ∧
      bits w 5 19 = v ∧ bits w 0 5 = low.toNat := by
  have hword : w.toNat = base.toNat + v * 2 ^ 5 + low.toNat := hw ▸ toNat_imm19 hbase hlow hv
  have hlt := base.toNat_lt
  refine ⟨?_, ?_, ?_, ?_⟩
  all_goals
    unfold bits
    omega

theorem ne_ret {w : UInt32} (h : bits w 24 8 ≠ 0xD6) : w ≠ 0xD65F03C0 := by
  rintro rfl
  exact h (by decide)

theorem decodeWord_bCond (cc : Cond) {v : Nat} (hv : v < 2 ^ 19) :
    decodeWord ((0x54000000 : UInt32) ||| cc.code ||| UInt32.ofNat v <<< 5) =
      some (.bCond cc (4 * signed 19 v)) := by
  have hlow : cc.code.toNat < 32 := by cases cc <;> decide
  generalize hw : (0x54000000 : UInt32) ||| cc.code ||| UInt32.ofNat v <<< 5 = w
  obtain ⟨htop, hkind, hdistance, hcond⟩ := bits_imm19 (by decide) hlow hv hw.symm
  simp only [UInt32.reduceToNat, Nat.reducePow, Nat.reduceDiv] at htop hkind
  have hret : w ≠ 0xD65F03C0 := ne_ret (by omega)
  cases cc <;> simp [decodeWord, hret, decodeBranch, htop, hkind, hdistance, hcond, Cond.code]

theorem bits_compare {w base : UInt32} {t : Gpr} {v : Nat} (hbase : base.toNat % 2 ^ 24 = 0)
    (ht : t.num ≤ 31) (hv : v < 2 ^ 19)
    (hw : w = base ||| gprField t ||| UInt32.ofNat v <<< 5) :
    bits w 26 6 = base.toNat / 2 ^ 26 ∧ bits w 24 8 = base.toNat / 2 ^ 24 ∧ bits w 5 19 = v ∧
      gprAt w 0 = t := by
  have hreg : (gprField t).toNat = t.num.toNat :=
    (toNat_gprField t).trans (Nat.mod_eq_of_lt (Nat.lt_succ_of_le ht))
  have hlow : (gprField t).toNat < 32 := by
    rw [toNat_gprField]
    exact Nat.mod_lt _ (by decide)
  obtain ⟨htop, hkind, hdistance, ht'⟩ := bits_imm19 hbase hlow hv hw
  exact ⟨htop, hkind, hdistance, gprAt_eq ht (ht'.trans hreg)⟩

theorem decodeWord_compare {base : UInt32} (hbase : base = 0xB4000000 ∨ base = 0xB5000000)
    {t : Gpr} (ht : t.num ≤ 31) {v : Nat} (hv : v < 2 ^ 19) :
    decodeWord (base ||| gprField t ||| UInt32.ofNat v <<< 5) =
      some (if base = 0xB4000000 then .cbz t (4 * signed 19 v) else .cbnz t (4 * signed 19 v)) := by
  generalize hw : base ||| gprField t ||| UInt32.ofNat v <<< 5 = w
  have hlow : base.toNat % 2 ^ 24 = 0 := by rcases hbase with rfl | rfl <;> decide
  obtain ⟨htop, hkind, hdistance, hreg⟩ := bits_compare hlow ht hv hw.symm
  rcases hbase with rfl | rfl <;>
    simp only [UInt32.reduceToNat, Nat.reducePow, Nat.reduceDiv] at htop hkind <;>
    simp [decodeWord, ne_ret (w := w) (by omega), decodeBranch, htop, hkind, hdistance, hreg]

theorem decodeWord_cbz {t : Gpr} (ht : t.num ≤ 31) {v : Nat} (hv : v < 2 ^ 19) :
    decodeWord ((0xB4000000 : UInt32) ||| gprField t ||| UInt32.ofNat v <<< 5) =
      some (.cbz t (4 * signed 19 v)) :=
  decodeWord_compare (.inl rfl) ht hv

theorem decodeWord_cbnz {t : Gpr} (ht : t.num ≤ 31) {v : Nat} (hv : v < 2 ^ 19) :
    decodeWord ((0xB5000000 : UInt32) ||| gprField t ||| UInt32.ofNat v <<< 5) =
      some (.cbnz t (4 * signed 19 v)) :=
  decodeWord_compare (.inr rfl) ht hv

end JitGemm.Arm64
