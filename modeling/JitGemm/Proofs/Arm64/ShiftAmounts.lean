import JitGemm.Proofs.Arm64.Stream

/-!
# Shift amounts

Half-word moves and left shifts take any amount without an error. A left shift counts modulo 64. The
half-word that a move selects has four bits where the field has two: the third one falls on a bit of
the pattern that is set already, and the fourth one turns the move into a word that is no
instruction.
-/

namespace JitGemm.Arm64

open Code (Buffer)

-- ---------------------------------------------------------------------------
-- What is left of an amount
-- ---------------------------------------------------------------------------

namespace Instr

/-- The instructions with a shift amount. -/
def Shifts : Instr → Prop
  | movz .. | movk .. | lslImm .. => True
  | _ => False

/-- The multiple of 16 that the field of a half-word move has room for. -/
def halfCut (shift : UInt8) : UInt8 := .ofNat (16 * (shift.toNat / 16 % 4))

/-- The instruction with the shift amount that its word says, if it is one at all. -/
def shiftCut? : Instr → Option Instr
  | movz d imm shift => if shift < 128 then some (.movz d imm (halfCut shift)) else none
  | movk d imm shift => if shift < 128 then some (.movk d imm (halfCut shift)) else none
  | lslImm d n shift => some (.lslImm d n (shift &&& 63))
  | i => some i

theorem halfCut_eq_iff {shift : UInt8} :
    shift < 128 ∧ halfCut shift = shift ↔ shift ∈ [0, 16, 32, 48] :=
  X86.forall_byte (m := 256)
    (P := fun shift => shift < 128 ∧ halfCut shift = shift ↔ shift ∈ [0, 16, 32, 48])
    (by decide +kernel) shift.toNat_lt

theorem and_63_eq_iff {shift : UInt8} : shift &&& 63 = shift ↔ shift ≤ 63 :=
  X86.forall_byte (m := 256) (P := fun shift => shift &&& 63 = shift ↔ shift ≤ 63)
    (by decide +kernel) shift.toNat_lt

/-- An amount is left as it is exactly where it is one that the instruction has. -/
theorem shiftCut?_eq_iff {i : Instr} (hi : i.Shifts) : i.shiftCut? = some i ↔ i.Covered := by
  cases i with
  | movz d imm shift | movk d imm shift =>
    rw [Covered, ← halfCut_eq_iff, shiftCut?]
    split
    · rename_i hshift
      simp [hshift]
    · rename_i hshift
      exact iff_of_false (by simp) fun h => hshift h.1
  | lslImm d n shift => simp [shiftCut?, Covered, and_63_eq_iff]
  | _ => exact hi.elim

end Instr

-- ---------------------------------------------------------------------------
-- Half-words
-- ---------------------------------------------------------------------------

/-- Bit 24 of the pattern is where amounts from 128 on end up. -/
def farBit (shift : UInt8) : UInt32 := if shift < 128 then 0 else 0x01000000

/-- Bit 23 is set in the patterns of both moves, so that a 64 in the amount is lost on it. -/
def patternBit : UInt32 := 0x00800000

theorem movWide_cut {base : UInt32} (hbase : base = movzBase ∨ base = movkBase) (d : Gpr)
    (imm : UInt16) (shift : UInt8) :
    movWide base d imm shift =
      movWide (base ||| farBit shift) d imm (.ofNat (16 * (shift.toNat / 16 % 4))) := by
  have hpattern : base ||| patternBit = base := by
    rcases hbase with rfl | rfl <;> decide
  have hlaid : patternBit ||| (shift / 16).toUInt32 <<< 21 =
      patternBit ||| (farBit shift ||| (Instr.halfCut shift / 16).toUInt32 <<< 21) :=
    X86.forall_byte (m := 256)
      (P := fun shift => patternBit ||| (shift / 16).toUInt32 <<< 21 =
        patternBit ||| (farBit shift ||| (Instr.halfCut shift / 16).toUInt32 <<< 21))
      (by decide +kernel) shift.toNat_lt
  have hcut : base ||| (shift / 16).toUInt32 <<< 21 =
      base ||| farBit shift ||| (Instr.halfCut shift / 16).toUInt32 <<< 21 :=
    calc base ||| (shift / 16).toUInt32 <<< 21
        = base ||| (patternBit ||| (shift / 16).toUInt32 <<< 21) := by
          rw [← UInt32.or_assoc, hpattern]
      _ = base ||| (patternBit ||| (farBit shift |||
            (Instr.halfCut shift / 16).toUInt32 <<< 21)) := by
          rw [hlaid]
      _ = base ||| farBit shift ||| (Instr.halfCut shift / 16).toUInt32 <<< 21 := by
          rw [← UInt32.or_assoc, hpattern, UInt32.or_assoc]
  rw [movWide, movWide, hcut, Instr.halfCut]

/-- Amounts from 128 on leave a word that no format has. -/
theorem readWord_far {base : UInt32} (hbase : base = movzBase ∨ base = movkBase) {d : Gpr}
    (hd : d.num ≤ 31) (imm : UInt16) {shift : UInt8} (hshift : ¬ shift < 128) :
    readWord none (movWide base d imm shift) = none := by
  have hlow : (base ||| farBit shift).toNat % 2 ^ 23 = 0 := by
    rw [farBit, if_neg hshift]
    rcases hbase with rfl | rfl <;> decide
  obtain ⟨hhigh, -⟩ := bits_movWide (k := shift.toNat / 16 % 4) (by omega) hlow hd
    (movWide_cut hbase d imm shift)
  rw [farBit, if_neg hshift] at hhigh
  generalize movWide base d imm shift = w at *
  obtain ⟨-, -, hhalf, htop⟩ := bits_leading w
  have hhigh : bits w 23 9 = 0x1A7 ∨ bits w 23 9 = 0x1E7 := by
    rcases hbase with rfl | rfl
    · exact .inl hhigh
    · exact .inr hhigh
  have hkind : bits w 22 10 ∈ [0x34E, 0x34F, 0x3CE, 0x3CF] := by
    simp only [List.mem_cons, List.not_mem_nil, or_false]
    omega
  have hother : bits w 5 27 ≠ 0x3780720 ∧ bits w 10 22 ≠ 0x135032 := by
    unfold bits at hhigh ⊢
    omega
  have hregisters : decodeRegisters w = none := by
    unfold decodeRegisters
    split <;> first | rfl | omega
  have hplain : decodeWord w = none := by
    simp only [List.mem_cons, List.not_mem_nil, or_false] at hkind
    rcases hkind with h | h | h | h <;> rw [h] at hhalf <;>
      rw [decodeWord_plain h (by decide)] <;>
      simp [decodePair, decodeAccess, decodeImmediate, hregisters, h, hhalf]
  simp [readWord, hplain, decodeVector, hother]

theorem readWord_movWide {base : UInt32} (hbase : base = movzBase ∨ base = movkBase) {d : Gpr}
    (hd : d.num ≤ 31) (imm : UInt16) (shift : UInt8) :
    readWord none (movWide base d imm shift) =
      if shift < 128 then
        some (if base = movzBase then .movz d imm (Instr.halfCut shift)
          else .movk d imm (Instr.halfCut shift))
      else none := by
  split
  · rename_i hshift
    have hcut := movWide_cut hbase d imm shift
    rw [farBit, if_pos hshift, UInt32.or_zero] at hcut
    exact readWord_plain (decodeWord_movWide (by omega) hbase hd hcut)
  · rename_i hshift
    exact readWord_far hbase hd imm hshift

-- ---------------------------------------------------------------------------
-- All amounts
-- ---------------------------------------------------------------------------

/-- Amounts are not looked at: only registers that do not exist leave an error. Without one the word
says the amount cut down to its field, and for a half-word move by 128 or more it says nothing; the
instruction that was asked for is read back exactly where it has that amount. -/
theorem shifts_cut {i : Instr} (hi : i.Shifts) {b : Buffer} (hb : b.error = none) :
    ((b.put i.chunk).error = none ↔ i.Encodable) ∧
      (i.Encodable → ∃ w, (b.put i.chunk).bytes.toList = b.bytes.toList ++ Code.le32 w ∧
        readWord none w = i.shiftCut? ∧ (readWord none w = some i ↔ i.Covered)) := by
  refine ⟨by rw [Buffer.error_put, i.fault_iff, and_iff_right hb], fun h => ?_⟩
  suffices hword : ∃ w, i.chunk.bytes = Code.le32 w ∧ readWord none w = i.shiftCut? by
    obtain ⟨w, hbytes, hread⟩ := hword
    exact ⟨w, by rw [Buffer.bytes_put, hbytes], hread, hread ▸ i.shiftCut?_eq_iff hi⟩
  cases i with
  | movz d imm shift => exact ⟨_, rfl, readWord_movWide (.inl rfl) h imm shift⟩
  | movk d imm shift => exact ⟨_, rfl, readWord_movWide (.inr rfl) h imm shift⟩
  | lslImm d n shift =>
    have hread := decodeWord_lsl (UInt8.toNat_toUInt32 (shift &&& 63))
      (UInt8.le_iff_toNat_le.mp UInt8.and_le_right) h.1 h.2 rfl
    rw [UInt8.ofNat_toNat] at hread
    exact ⟨_, rfl, readWord_plain hread⟩
  | _ => exact hi.elim

/-- A half-word whose number does not fit its field. -/
theorem fields_cut :
    (Instr.movk ⟨3⟩ 7 77).Shifts ∧ ({} : Buffer).error = none ∧
      (Instr.movk ⟨3⟩ 7 77).Encodable ∧ (Instr.movk ⟨3⟩ 7 77).shiftCut? = some (.movk ⟨3⟩ 7 0) ∧
      ∃ w, (({} : Buffer).put (Instr.movk ⟨3⟩ 7 77).chunk).bytes.toList = Code.le32 w ∧
        readWord none w = some (.movk ⟨3⟩ 7 0) := by
  have hencodable : (Instr.movk ⟨3⟩ 7 77).Encodable := by decide
  obtain ⟨-, hread⟩ := shifts_cut (i := .movk ⟨3⟩ 7 77) trivial (b := {}) rfl
  obtain ⟨w, hbytes, hw, -⟩ := hread hencodable
  exact ⟨trivial, rfl, hencodable, by decide, w, hbytes, hw⟩

/-- Amounts that do not exist leave no error, and the words say something else or nothing. -/
theorem halfword_vanishes :
    let code (i : Instr) := (({} : Buffer).put i.chunk).bytes.toList
    let read (i : Instr) := (wordsOf (code i)).map (readWord none)
    (∀ i ∈ [Instr.movz ⟨0⟩ 1 64, .movk ⟨0⟩ 1 17, .movz ⟨0⟩ 1 128, .lslImm ⟨0⟩ ⟨1⟩ 64],
        i.Shifts ∧ (({} : Buffer).put i.chunk).error = none) ∧
      read (.movz ⟨0⟩ 1 64) = [some (.movz ⟨0⟩ 1 0)] ∧
      read (.movk ⟨0⟩ 1 17) = [some (.movk ⟨0⟩ 1 16)] ∧
      read (.movz ⟨0⟩ 1 128) = [none] ∧
      read (.lslImm ⟨0⟩ ⟨1⟩ 64) = [some (.lslImm ⟨0⟩ ⟨1⟩ 0)] := by
  refine ⟨?_, ?_, ?_, ?_, ?_⟩
  · simp only [List.forall_mem_cons, List.not_mem_nil, false_implies, implies_true, Instr.Shifts]
    decide
  all_goals decide

end JitGemm.Arm64
