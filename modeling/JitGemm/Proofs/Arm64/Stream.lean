import JitGemm.Proofs.Scalar.Operations

/-!
# Reading the calls of an assembler back

A call leaves one word, or for a constant a chain of them, and its fault says exactly whether an
operand lies outside its field. Without a fault every word is read back as the instruction that was
asked for. Vector instructions whose opcode the caller chooses are the one thing that the reader has
to be told of: which bits are register fields is up to the opcode.
-/

namespace JitGemm.Arm64

open Code (Buffer le32 word32 word32_le32)

-- ---------------------------------------------------------------------------
-- Reading words
-- ---------------------------------------------------------------------------

/-- How many registers a vector instruction names. -/
inductive VectorForm where
  | two
  | three
  deriving DecidableEq, Repr

/-- A vector word taken apart: the opcode is what is no register field. -/
def VectorForm.read (w : UInt32) : VectorForm → Instr
  | two => .v2 (.ofNat (bits w 10 22 * 2 ^ 10)) (vregAt w 0) (vregAt w 5)
  | three =>
    .v3 (.ofNat (bits w 21 11 * 2 ^ 21 + bits w 10 6 * 2 ^ 10)) (vregAt w 0) (vregAt w 5)
      (vregAt w 16)

/-- Zeros to all bytes of a register, and loads of one word to all lanes. -/
def decodeVector (w : UInt32) : Option Instr :=
  if bits w 5 27 = 0x3780720 then some (.moviZero (vregAt w 0))
  else if bits w 10 22 = 0x135032 then some (.ld1r4s (vregAt w 0) (gprAt w 5))
  else none

/-- The instruction of a word, where branches are left out. -/
def readWord (form : Option VectorForm) (w : UInt32) : Option Instr :=
  match form with
  | some f => some (f.read w)
  | none =>
    match decodeWord w with
    | some (.plain i) => some i
    | some _ => none
    | none => decodeVector w

theorem readWord_plain {w : UInt32} {i : Instr} (h : decodeWord w = some (.plain i)) :
    readWord none w = some i := by
  simp [readWord, h]

theorem readWord_moviZero {d : Vreg} (hd : d.num ≤ 31) :
    readWord none (0x6F00E400 ||| vregField d) = some (.moviZero d) := by
  have hd' : d.num.toNat < 32 := Nat.lt_succ_of_le hd
  have hfield := toNat_vregField hd
  have hword : ((0x6F00E400 : UInt32) ||| vregField d).toNat = 0x6F00E400 + d.num.toNat := by
    rw [toNat_or_low 5 (by decide) (by omega), hfield]
    rfl
  generalize (0x6F00E400 : UInt32) ||| vregField d = w at hword
  have hkind : bits w 22 10 = 0x1BC := by
    unfold bits
    omega
  have htop : bits w 21 11 = 0x378 := by
    unfold bits
    omega
  have hpattern : bits w 5 27 = 0x3780720 := by
    unfold bits
    omega
  have hreg : vregAt w 0 = d := vregAt_eq (by unfold bits; omega)
  obtain ⟨-, -, hhalf, -⟩ := bits_leading w
  rw [hkind] at hhalf
  have hplain : decodeWord w = none := by
    rw [decodeWord_plain hkind (by decide)]
    simp [decodePair, decodeAccess, decodeImmediate, decodeRegisters, hkind, htop, hhalf]
  simp [readWord, hplain, decodeVector, hpattern, hreg]

theorem readWord_ld1r4s {t : Vreg} {n : Gpr} (ht : t.num ≤ 31) (hn : n.num ≤ 31) :
    readWord none ((0x4D40C800 : UInt32) ||| gprField n <<< 5 ||| vregField t) =
      some (.ld1r4s t n) := by
  obtain ⟨hpattern, ht', hn', hplain⟩ := bits_ld1r4s ht hn rfl
  generalize (0x4D40C800 : UInt32) ||| gprField n <<< 5 ||| vregField t = w at *
  have hother : bits w 5 27 ≠ 0x3780720 := by
    unfold bits at hpattern ⊢
    omega
  simp [readWord, hplain, decodeVector, hother, hpattern, ht', hn']

section

variable {base : UInt32} {d n m : Vreg}

theorem read_three (hbase : bits base 0 5 = 0 ∧ bits base 5 5 = 0 ∧ bits base 16 5 = 0)
    (hd : d.num ≤ 31) (hn : n.num ≤ 31) (hm : m.num ≤ 31) :
    VectorForm.three.read (base ||| vregField m <<< 16 ||| vregField n <<< 5 ||| vregField d) =
      .v3 base d n m := by
  obtain ⟨htop, hmid, hlast, hfirst, hsecond⟩ :=
    bits_three hbase (vregField_lt d) (vregField_lt n) (vregField_lt m) rfl
  have hopcode : bits base 21 11 * 2 ^ 21 + bits base 10 6 * 2 ^ 10 = base.toNat := by
    have hlt := base.toNat_lt
    unfold bits at hbase ⊢
    omega
  rw [VectorForm.read, htop, hmid, hopcode, UInt32.ofNat_toNat, vregAt_field hd hlast,
    vregAt_field hn hfirst, vregAt_field hm hsecond]

theorem bits_two {w : UInt32} (hbase : bits base 0 5 = 0 ∧ bits base 5 5 = 0) (hd : d.num ≤ 31)
    (hn : n.num ≤ 31) (hw : w = base ||| vregField n <<< 5 ||| vregField d) :
    bits w 10 22 = bits base 10 22 ∧ vregAt w 0 = d ∧ vregAt w 5 = n := by
  have hd' := toNat_vregField hd
  have hn' := toNat_vregField hn
  have hdlt : d.num.toNat < 32 := Nat.lt_succ_of_le hd
  have hnlt : n.num.toNat < 32 := Nat.lt_succ_of_le hn
  unfold bits at hbase
  have hfirst := toNat_or_field (a := base) (x := vregField n) 5 (n := 5) (by decide) (by decide)
    (by simp only [UInt32.reduceToNat]; omega) (by omega)
  simp only [UInt32.reduceToNat] at hfirst
  have hword : w.toNat = base.toNat + n.num.toNat * 2 ^ 5 + d.num.toNat := by
    rw [hw, toNat_or_low 5 (by omega) (by omega), hfirst, hn', hd']
  refine ⟨?_, vregAt_eq ?_, vregAt_eq ?_⟩
  all_goals
    unfold bits
    omega

theorem read_two (hbase : bits base 0 5 = 0 ∧ bits base 5 5 = 0) (hd : d.num ≤ 31)
    (hn : n.num ≤ 31) :
    VectorForm.two.read (base ||| vregField n <<< 5 ||| vregField d) = .v2 base d n := by
  obtain ⟨hhigh, hd', hn'⟩ := bits_two hbase hd hn rfl
  have hopcode : bits base 10 22 * 2 ^ 10 = base.toNat := by
    have hlt := base.toNat_lt
    unfold bits at hbase ⊢
    omega
  rw [VectorForm.read, hhigh, hopcode, UInt32.ofNat_toNat, hd', hn']

end

-- ---------------------------------------------------------------------------
-- Calls
-- ---------------------------------------------------------------------------

/-- The non-negative multiples of `size` that twelve bits count. -/
def ScaledOffset (size : Nat) (offset : Int32) : Prop :=
  0 ≤ offset.toInt ∧ (size : Int) ∣ offset.toInt ∧ offset.toInt ≤ 4095 * size

theorem fitsScaled_iff {offset : Int32} {size : Nat} (hsize : size = 8 ∨ size = 16) :
    fitsScaled offset (Int32.ofNat size) ↔ ScaledOffset size offset := by
  constructor
  · intro h
    obtain ⟨k, hk, rfl, -⟩ := fitsScaled_count hsize h
    have hint : (Int32.ofNat (size * k)).toInt = size * k :=
      Int32.toInt_ofNat_of_lt (by rcases hsize with rfl | rfl <;> omega)
    simp only [ScaledOffset, hint, Int.dvd_mul_right, true_and]
    rcases hsize with rfl | rfl <;> omega
  · rintro ⟨hlo, hdvd, hhi⟩
    have hsizeInt : (Int32.ofNat size).toInt = size := by rcases hsize with rfl | rfl <;> rfl
    have hne : offset ≠ Int32.minValue := by
      rintro rfl
      exact absurd hlo (by decide)
    simp only [fitsScaled, Bool.and_eq_true, decide_eq_true_eq, beq_iff_eq]
    rw [← Int32.toInt_inj, Int32.toInt_mod, hsizeInt, Int32.le_iff_toInt_le,
      Int32.le_iff_toInt_le, Int32.toInt_div_of_ne_left _ _ hne, hsizeInt,
      Int.tdiv_eq_ediv_of_nonneg hlo]
    refine ⟨⟨hlo, Int.tmod_eq_zero_of_dvd hdvd⟩, ?_⟩
    simp only [Int32.reduceToInt]
    rcases hsize with rfl | rfl <;> omega

theorem fits8_iff {offset : Int32} : fitsScaled offset 8 ↔ ScaledOffset 8 offset :=
  fitsScaled_iff (.inl rfl)

theorem fits16_iff {offset : Int32} : fitsScaled offset 16 ↔ ScaledOffset 16 offset :=
  fitsScaled_iff (.inr rfl)

namespace Instr

/-- Calls other than branches and bare words, with shifts that exist and vector opcodes that leave
the register fields empty. -/
def Covered : Instr → Prop
  | word _ | b _ | bCond .. | cbz .. | cbnz .. => False
  | movz _ _ shift | movk _ _ shift => shift ∈ [0, 16, 32, 48]
  | lslImm _ _ shift => shift ≤ 63
  | v3 base _ _ _ => bits base 0 5 = 0 ∧ bits base 5 5 = 0 ∧ bits base 16 5 = 0
  | v2 base _ _ => bits base 0 5 = 0 ∧ bits base 5 5 = 0
  | _ => True

/-- Whether every operand has a place in the instruction. Shifts are not looked at. -/
def Encodable : Instr → Prop
  | stp t t2 n offset _ | ldp t t2 n offset _ =>
    t.num ≤ 31 ∧ t2.num ≤ 31 ∧ PairOffset offset ∧ n.num ≤ 31
  | stpD t t2 n offset | ldpD t t2 n offset =>
    t.num ≤ 31 ∧ t2.num ≤ 31 ∧ PairOffset offset ∧ n.num ≤ 31
  | addImm d n imm | subImm d n imm | subsImm d n imm =>
    imm ≤ 0xFFF ∧ d.num ≤ 31 ∧ n.num ≤ 31
  | add d n m | sub d n m | mul d n m => d.num ≤ 31 ∧ n.num ≤ 31 ∧ m.num ≤ 31
  | movSp d n | mov d n | neg d n | lslImm d n _ => d.num ≤ 31 ∧ n.num ≤ 31
  | movz d _ _ | movk d _ _ | movImm d _ => d.num ≤ 31
  | ldr t n offset | str t n offset => t.num ≤ 31 ∧ ScaledOffset 8 offset ∧ n.num ≤ 31
  | ldrQ t n offset | strQ t n offset => t.num ≤ 31 ∧ ScaledOffset 16 offset ∧ n.num ≤ 31
  | v3 _ d n m => d.num ≤ 31 ∧ n.num ≤ 31 ∧ m.num ≤ 31
  | v2 _ d n => d.num ≤ 31 ∧ n.num ≤ 31
  | moviZero d => d.num ≤ 31
  | ld1r4s t n => t.num ≤ 31 ∧ n.num ≤ 31
  | cbz t _ | cbnz t _ => t.num ≤ 31
  | word _ | b _ | bCond .. | ret => True

theorem fault_iff (i : Instr) : i.chunk.fault = none ↔ i.Encodable := by
  have hpair : ∀ {offset : Int32}, pairFault offset = none ↔ PairOffset offset := fun {_} => by
    simp [pairFault, pairOffsetOk_iff]
  have hzero : (⟨0⟩ : Gpr).num ≤ 31 := by decide
  have hnone : (0 : UInt32) ≤ 0xFFF := by decide
  cases i with
  | stp | ldp => simp [chunk, gprPair, one_clean, gprFault_none, hpair, Encodable]
  | stpD | ldpD =>
    simp [chunk, vregPair, one_clean, gprFault_none, vregFault_none, hpair, Encodable]
  | addImm | subImm | subsImm => exact imm12_clean
  | movSp => simp [chunk, imm12_clean, hnone, Encodable]
  | add | sub | mul => exact rrr_clean
  | mov | neg => simp [chunk, rrr_clean, hzero, Encodable]
  | lslImm => simp [chunk, lsl, one_clean, gprFault_none, Encodable]
  | movz | movk | movImm => simp [chunk, one_clean, gprFault_none, Encodable]
  | ldr | str => simp [chunk, scaled_clean, gprFault_none, fits8_iff, Encodable]
  | ldrQ | strQ => simp [chunk, scaled_clean, vregFault_none, fits16_iff, Encodable]
  | v3 => simp [chunk, vec3, one_clean, vregFault_none, Encodable]
  | v2 | moviZero | ld1r4s =>
    simp [chunk, one_clean, vregFault_none, gprFault_none, Encodable]
  | cbz | cbnz => exact gprFault_none
  | word | b | bCond | ret => exact iff_of_true rfl trivial

instance (i : Instr) : Decidable i.Encodable := decidable_of_iff (i.chunk.fault = none) i.fault_iff

/-- What the reader is told of the words of a call. -/
def form? : Instr → Option VectorForm
  | v3 .. => some .three
  | v2 .. => some .two
  | _ => none

/-- The instruction that a call is read back as. Moves to the stack pointer are additions, and
negations are subtractions from zero. -/
def aliased : Instr → Instr
  | neg d m => .sub d .sp m
  | i => i.canonical

/-- What the words of a call are read back as: the instruction itself, or half-word moves that
together write a constant. -/
def ReadsAs : Instr → List Instr → Prop
  | movImm d imm, js =>
    (∀ j ∈ js, ∃ part shift, j = .movz d part shift ∨ j = .movk d part shift) ∧
      ∀ s : Machine, s.block js = some (s.setReg d imm)
  | i, js => js = [i.aliased]

theorem Decodes.reads {i : Instr} (h : i.Decodes) :
    i.words.mapM (readWord none) = some [i.canonical] := by
  obtain ⟨w, hw, hwords⟩ := h.words
  have hone := hwords []
  rw [List.append_nil] at hone
  simp [Instr.words, hone, wordsOf, readWord_plain hw]

theorem reads_one {i j : Instr} {w : UInt32} {form : Option VectorForm}
    (hbytes : i.chunk.bytes = le32 w) (h : readWord form w = some j) :
    i.words.mapM (readWord form) = some [j] := by
  simp [words_one hbytes, h]

/-- Instructions in a row, each in the form in which it is read back. -/
theorem reads_block {js : List Instr} (h : ∀ j ∈ js, j.Decodes ∧ j.canonical = j) :
    (wordsOf (blockBytes js)).mapM (readWord none) = some js := by
  induction js with
  | nil => rfl
  | cons j js ih =>
    obtain ⟨⟨hj, hsame⟩, hjs⟩ := List.forall_mem_cons.mp h
    obtain ⟨w, hw, hwords⟩ := hj.words
    rw [hsame] at hw
    have hsplit : blockBytes (j :: js) = j.chunk.bytes ++ blockBytes js := List.flatMap_cons
    simp [hsplit, hwords, readWord_plain hw, ih hjs]

theorem reads_constant {d : Gpr} (hd : d.num ≤ 31) (imm : UInt64) :
    ∃ js, (movImm d imm).words.mapM (readWord none) = some js ∧ (movImm d imm).ReadsAs js := by
  have hmoves : ∀ j ∈ constantMoves d imm,
      ∃ part shift, j = .movz d part shift ∨ j = .movk d part shift := by
    refine List.forall_mem_cons.mpr ⟨⟨_, _, .inl rfl⟩, fun j hj => ?_⟩
    obtain ⟨k, -, hk⟩ := List.mem_flatMap.mp hj
    unfold moveHalf at hk
    split at hk
    · cases hk
    · exact ⟨_, _, .inr (List.mem_singleton.mp hk)⟩
  refine ⟨constantMoves d imm, ?_, hmoves, block_constantMoves d imm⟩
  rw [words, bytes_movImm]
  refine reads_block fun j hj => ⟨decodes_constantMoves hd imm j hj, ?_⟩
  obtain ⟨part, shift, rfl | rfl⟩ := hmoves j hj <;> rfl

theorem reads_back {i : Instr} (hcovered : i.Covered) (h : i.Encodable) :
    ∃ js, i.words.mapM (readWord i.form?) = some js ∧ i.ReadsAs js := by
  cases i with
  | word | b | bCond | cbz | cbnz => exact hcovered.elim
  | stp t t2 n offset mode => exact ⟨_, (decodes_stp h.1 h.2.1 h.2.2.2 h.2.2.1 mode).reads, rfl⟩
  | ldp t t2 n offset mode => exact ⟨_, (decodes_ldp h.1 h.2.1 h.2.2.2 h.2.2.1 mode).reads, rfl⟩
  | stpD => exact ⟨_, (decodes_stpD h.1 h.2.1 h.2.2.2 h.2.2.1).reads, rfl⟩
  | ldpD => exact ⟨_, (decodes_ldpD h.1 h.2.1 h.2.2.2 h.2.2.1).reads, rfl⟩
  | addImm => exact ⟨_, (decodes_addImm h.2.1 h.2.2 h.1).reads, rfl⟩
  | subImm => exact ⟨_, (decodes_subImm h.2.1 h.2.2 h.1).reads, rfl⟩
  | subsImm => exact ⟨_, (decodes_subsImm h.2.1 h.2.2 h.1).reads, rfl⟩
  | movSp => exact ⟨_, (decodes_movSp h.1 h.2).reads, rfl⟩
  | add => exact ⟨_, (decodes_add h.1 h.2.1 h.2.2).reads, rfl⟩
  | sub => exact ⟨_, (decodes_sub h.1 h.2.1 h.2.2).reads, rfl⟩
  | mul => exact ⟨_, (decodes_mul h.1 h.2.1 h.2.2).reads, rfl⟩
  | mov => exact ⟨_, (decodes_mov h.1 h.2).reads, rfl⟩
  | neg d m =>
    -- a negation has the word of a subtraction from zero
    have hreads := (decodes_sub h.1 (by decide : Gpr.sp.num ≤ 31) h.2).reads
    rw [words, ← bytes_neg] at hreads
    exact ⟨_, hreads, rfl⟩
  | lslImm d n shift =>
    have hreads := (decodes_lslImm h.1 h.2 (UInt8.le_iff_toNat_le.mp hcovered)).reads
    rw [UInt8.ofNat_toNat] at hreads
    exact ⟨_, hreads, rfl⟩
  | movz d imm shift =>
    obtain ⟨k, hk, rfl⟩ := halfShift hcovered
    exact ⟨_, (decodes_movz h imm hk).reads, rfl⟩
  | movk d imm shift =>
    obtain ⟨k, hk, rfl⟩ := halfShift hcovered
    exact ⟨_, (decodes_movk h imm hk).reads, rfl⟩
  | movImm d imm => exact reads_constant h imm
  | ldr => exact ⟨_, (decodes_ldr h.1 h.2.2 (fits8_iff.mpr h.2.1)).reads, rfl⟩
  | str => exact ⟨_, (decodes_str h.1 h.2.2 (fits8_iff.mpr h.2.1)).reads, rfl⟩
  | ldrQ => exact ⟨_, (decodes_ldrQ h.1 h.2.2 (fits16_iff.mpr h.2.1)).reads, rfl⟩
  | strQ => exact ⟨_, (decodes_strQ h.1 h.2.2 (fits16_iff.mpr h.2.1)).reads, rfl⟩
  | v3 base d n m =>
    exact ⟨_, reads_one rfl (congrArg some (read_three hcovered h.1 h.2.1 h.2.2)), rfl⟩
  | v2 base d n => exact ⟨_, reads_one rfl (congrArg some (read_two hcovered h.1 h.2)), rfl⟩
  | moviZero => exact ⟨_, reads_one rfl (readWord_moviZero h), rfl⟩
  | ld1r4s => exact ⟨_, reads_one rfl (readWord_ld1r4s h.1 h.2), rfl⟩
  | ret => exact ⟨_, (by decide : Instr.ret.Decodes).reads, rfl⟩

end Instr

-- ---------------------------------------------------------------------------
-- Sequences
-- ---------------------------------------------------------------------------

/-- The buffer after calls of the assembler, one after the other. -/
def emitted (is : List Instr) : Buffer := is.foldl (fun b i => b.put i.chunk) {}

/-- A call leaves an error exactly where an operand lies outside its field, and the check on scaled
offsets is the one that the encoders apply. The code is the words of the calls in their order, those
of a call without an error are read back as what was asked for, and that is one word except where
half-words make up a constant. -/
theorem calls_read_back {is : List Instr} (hcovered : ∀ i ∈ is, i.Covered) :
    (∀ i ∈ is, ∀ b : Buffer, (b.put i.chunk).error = none ↔ b.error = none ∧ i.Encodable) ∧
      ((emitted is).error = none ↔ ∀ i ∈ is, i.Encodable) ∧
      (∀ offset, (fitsScaled offset 8 ↔ ScaledOffset 8 offset) ∧
        (fitsScaled offset 16 ↔ ScaledOffset 16 offset)) ∧
      (emitted is).bytes.toList = (is.flatMap (·.words)).flatMap le32 ∧
      ∀ i ∈ is, i.Encodable →
        ∃ js, i.words.mapM (readWord i.form?) = some js ∧ i.ReadsAs js := by
  refine ⟨fun i _ b => ?_, ?_, fun offset => ⟨fits8_iff, fits16_iff⟩, ?_, fun i hi h => ?_⟩
  · rw [Buffer.error_put, i.fault_iff]
  · rw [emitted, Buffer.error_foldl_put Instr.chunk, and_iff_right rfl]
    exact forall₂_congr fun i _ => i.fault_iff
  · rw [emitted, Buffer.bytes_foldl_put Instr.chunk, List.flatMap_assoc]
    exact congrArg List.flatten (List.map_congr_left fun i _ => i.bytes_words)
  · exact Instr.reads_back (hcovered i hi) h

/-- Operands at the ends of their fields, the stack pointer and the zero register, a constant with
half-words left out, and calls that are refused. -/
def assortedCalls : List Instr :=
  [.stp ⟨29⟩ .lr .sp (-512) .pre, .ldpD ⟨8⟩ ⟨9⟩ .sp 504, .subsImm .sp ⟨3⟩ 0xFFF, .movSp .sp ⟨29⟩,
    .neg ⟨0⟩ ⟨1⟩, .mul ⟨1⟩ ⟨2⟩ .sp, .lslImm ⟨2⟩ ⟨3⟩ 63, .movk ⟨4⟩ 0xFFFF 48,
    .movImm ⟨5⟩ 0xFFFF000000010000, .ldrQ ⟨31⟩ .sp 65520, .v3 0x4E20D400 ⟨31⟩ ⟨2⟩ ⟨3⟩,
    .v2 0x4EA0F800 ⟨6⟩ ⟨7⟩, .moviZero ⟨8⟩, .ld1r4s ⟨9⟩ .sp, .ret, .str ⟨0⟩ ⟨1⟩ 4,
    .stp ⟨0⟩ ⟨1⟩ .sp 508 .offset, .addImm ⟨0⟩ ⟨1⟩ 0x1000, .add ⟨0⟩ ⟨32⟩ ⟨1⟩]

theorem assortedCalls_read_back :
    (∀ i ∈ assortedCalls, i.Covered) ∧ (assortedCalls.filter (·.Encodable)).length = 15 ∧
      (emitted assortedCalls).error ≠ none ∧
      ∀ i ∈ assortedCalls, i.Encodable →
        ∃ js, i.words.mapM (readWord i.form?) = some js ∧ i.ReadsAs js := by
  have hcovered : ∀ i ∈ assortedCalls, i.Covered := by
    simp only [assortedCalls, List.forall_mem_cons, List.not_mem_nil, false_implies, implies_true,
      Instr.Covered]
    decide
  obtain ⟨-, herror, -, -, hread⟩ := calls_read_back hcovered
  exact ⟨hcovered, by decide, fun h => absurd (herror.mp h) (by decide), hread⟩

end JitGemm.Arm64
