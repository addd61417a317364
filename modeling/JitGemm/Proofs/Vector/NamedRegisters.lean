import JitGemm.Proofs.Arm64.Stream
import JitGemm.Proofs.Vector.Extensions

/-!
# Registers of vector instructions

Which vector registers an instruction names, told from the fields that its opcode gives a meaning,
and from the bits of a word on AArch64.
-/

namespace JitGemm

-- ---------------------------------------------------------------------------
-- Registers of an instruction
-- ---------------------------------------------------------------------------

def VecSource.vregs : VecSource → List Vreg
  | .reg v => [v]
  | .mem _ => []

@[simp] theorem VecSource.vregs_reg (v : Vreg) : (VecSource.reg v).vregs = [v] := rfl

@[simp] theorem VecSource.vregs_mem (m : Address) : (VecSource.mem m).vregs = [] := rfl

namespace X86

/-- What the register fields of a vector instruction stand for. -/
inductive Operands where
  /-- A destination, from memory. -/
  | load
  /-- Two registers, the source perhaps in memory. -/
  | unary
  /-- Two sources. In the legacy family the destination is the first one. -/
  | binary
  /-- Two sources and a mask, which is register 0 in the legacy family and the high half of the
  immediate byte under VEX. -/
  | masked
  deriving DecidableEq, Repr

def Opcode.operands? (op : Opcode) : Option Operands :=
  let pick (loads unaries binaries masked : List UInt8) : Option Operands :=
    if loads.contains op.byte then some .load
    else if unaries.contains op.byte then some .unary
    else if binaries.contains op.byte then some .binary
    else if masked.contains op.byte then some .masked
    else none
  match op.pp, op.map with
  | .none, .m0F => pick [] [0x10, 0x11, 0x28, 0x52, 0x53] [0x57, 0x58, 0x59, 0x5C, 0xC2, 0xC6] []
  | .p66, .m0F => pick [0x6E] [0x70] [0x67, 0x6B, 0xEF, 0xFE] []
  | .pF3, .m0F => pick [0x10] [0x6F, 0x7F] [] []
  | .p66, .m0F38 => pick [] [0x18, 0x4C, 0x4E, 0x58] [0x40, 0xA8, 0xB8] [0x14]
  | .p66, .m0F3A => pick [] [0x08] [0x18] [0x4A]
  | _, _ => none

def Rm.vregs : Rm → List Vreg
  | .reg n => [⟨n⟩]
  | .mem _ => []

/-- The registers of the families with a field for a second source, which is empty where there is
none. -/
def Opcode.named? (op : Opcode) (reg vvvv : UInt8) (rm : Rm) (mask : Option UInt8) :
    Option (List Vreg) :=
  match op.operands? with
  | some .load => if vvvv = 0 ∧ rm.vregs = [] then some [⟨reg⟩] else none
  | some .unary => if vvvv = 0 then some (⟨reg⟩ :: rm.vregs) else none
  | some .binary => some (⟨reg⟩ :: ⟨vvvv⟩ :: rm.vregs)
  | some .masked => mask.map fun n => ⟨reg⟩ :: ⟨vvvv⟩ :: rm.vregs ++ [⟨n >>> 4⟩]
  | none => none

/-- The vector registers that an instruction names, if it is one of the vector instructions. -/
def Instr.vregs? : Instr → Option (List Vreg)
  | .sse op reg rm _ =>
    match op.operands? with
    | some .load => if rm.vregs = [] then some [⟨reg⟩] else none
    | some .unary | some .binary => some (⟨reg⟩ :: rm.vregs)
    | some .masked => some (⟨reg⟩ :: rm.vregs ++ [⟨0⟩])
    | none => none
  | .vex op _ _ reg vvvv rm imm => op.named? reg vvvv rm imm
  | .evex op _ reg vvvv rm _ => op.named? reg vvvv rm none
  | _ => none

end X86

namespace Arm64

def Instr.vregs : Instr → List Vreg
  | ldrQ v _ _ | strQ v _ _ | moviZero v | ld1r4s v _ => [v]
  | stpD t t2 .. | ldpD t t2 .. => [t, t2]
  | v2 _ d n => [d, n]
  | v3 _ d n m => [d, n, m]
  | _ => []

/-- Arithmetic on three vectors of one kind, and copies of one lane to all lanes. -/
def vectorForm? (w : UInt32) : Option VectorForm :=
  if bits w 24 5 = 0x0E ∧ bits w 31 1 = 0 then
    if bits w 21 1 = 1 ∧ bits w 10 1 = 1 then some .three
    else if bits w 21 3 = 0 ∧ bits w 29 1 = 0 ∧ bits w 10 6 = 1 then some .two
    else none
  else none

def wordVregs? (w : UInt32) : Option (List Vreg) := (readWord (vectorForm? w) w).map Instr.vregs

end Arm64

def Fetched.vregs? : Fetched → Option (List Vreg)
  | .x86 (.plain i) => i.vregs?
  | .x86 _ => none
  | .word w => Arm64.wordVregs? w

/-- What the instructions of a stretch of code name, one after the other. -/
def Target.named? (t : Target) (code : List UInt8) : Option (List (List Vreg)) :=
  (t.fetchAll? code).bind fun is => is.mapM Fetched.vregs?

-- ---------------------------------------------------------------------------
-- Words of AArch64
-- ---------------------------------------------------------------------------

namespace Arm64

/-- The decoder of everything else leaves the class of vector arithmetic out. -/
theorem readWord_vector {w : UInt32} (h : bits w 24 5 = 0x0E) : readWord none w = none := by
  obtain ⟨htop, hwide, hhalf, hkind⟩ := bits_leading w
  have hclass : bits w 24 8 % 2 ^ 5 = 0x0E := by
    unfold bits at h ⊢
    omega
  have hret : w ≠ 0xD65F03C0 := by
    rintro rfl
    exact absurd h (by decide)
  have hbranch : decodeBranch w = none := by
    unfold decodeBranch
    rw [if_neg (by omega)]
    split <;> first | rfl | omega
  have hpair : decodePair w = none := by
    unfold decodePair
    split <;> first | rfl | omega
  have haccess : decodeAccess w = none := by
    unfold decodeAccess
    split <;> first | rfl | omega
  have himmediate : decodeImmediate w = none := by
    unfold decodeImmediate
    split
    · omega
    · omega
    · omega
    · omega
    · simp only
      split <;> first | rfl | omega
  have hregisters : decodeRegisters w = none := by
    unfold decodeRegisters
    split <;> first | rfl | omega
  have hother : bits w 5 27 ≠ 0x3780720 ∧ bits w 10 22 ≠ 0x135032 := by
    unfold bits at h ⊢
    omega
  simp [readWord, decodeWord, hret, hbranch, hpair, haccess, himmediate, hregisters, decodeVector,
    hother]

theorem wordVregs_plain {w : UInt32} {i : Instr} (h : readWord none w = some i) :
    wordVregs? w = some i.vregs := by
  have hform : vectorForm? w = none := by
    refine if_neg fun hclass => ?_
    rw [readWord_vector hclass.1] at h
    cases h
  rw [wordVregs?, hform, h, Option.map_some]

theorem vectorForm_congr {v w : UInt32} (htop : bits w 21 11 = bits v 21 11)
    (hmid : bits w 10 6 = bits v 10 6) : vectorForm? w = vectorForm? v := by
  have hfields : ∀ u : UInt32, bits u 24 5 = bits u 21 11 / 2 ^ 3 % 2 ^ 5 ∧
      bits u 31 1 = bits u 21 11 / 2 ^ 10 ∧ bits u 21 1 = bits u 21 11 % 2 ∧
      bits u 10 1 = bits u 10 6 % 2 ∧ bits u 21 3 = bits u 21 11 % 2 ^ 3 ∧
      bits u 29 1 = bits u 21 11 / 2 ^ 8 % 2 := by
    intro u
    have hu := u.toNat_lt
    unfold bits
    omega
  obtain ⟨h24, h31, h21, h10, h21', h29⟩ := hfields w
  obtain ⟨g24, g31, g21, g10, g21', g29⟩ := hfields v
  rw [htop] at h24 h31 h21 h21' h29
  rw [hmid] at h10
  simp only [vectorForm?, h24, h31, h21, h10, h21', h29, hmid, g24, g31, g21, g10, g21', g29]

namespace Instr

/-- Calls whose words say by themselves how many vector registers they name. -/
def Legible : Instr → Prop
  | v3 base d n m => (v3 base d n m).Covered ∧ vectorForm? base = some .three
  | v2 base d n => (v2 base d n).Covered ∧ vectorForm? base = some .two
  | i => i.Covered

theorem Legible.covered {i : Instr} (h : i.Legible) : i.Covered := by
  cases i <;> first | exact h.1 | exact h

theorem wordVregs_three {base : UInt32} {d n m : Vreg} (h : (v3 base d n m).Legible)
    (hd : d.num ≤ 31) (hn : n.num ≤ 31) (hm : m.num ≤ 31) :
    wordVregs? (base ||| vregField m <<< 16 ||| vregField n <<< 5 ||| vregField d) =
      some [d, n, m] := by
  obtain ⟨hbase, hform⟩ := h
  obtain ⟨htop, hmid, -⟩ :=
    bits_three hbase (vregField_lt d) (vregField_lt n) (vregField_lt m) rfl
  rw [wordVregs?, vectorForm_congr htop hmid, hform, readWord, read_three hbase hd hn hm]
  rfl

theorem wordVregs_two {base : UInt32} {d n : Vreg} (h : (v2 base d n).Legible) (hd : d.num ≤ 31)
    (hn : n.num ≤ 31) :
    wordVregs? (base ||| vregField n <<< 5 ||| vregField d) = some [d, n] := by
  obtain ⟨hbase, hform⟩ := h
  obtain ⟨hhigh, -⟩ := bits_two hbase hd hn rfl
  have hfields : ∀ u : UInt32, bits u 21 11 = bits u 10 22 / 2 ^ 11 ∧
      bits u 10 6 = bits u 10 22 % 2 ^ 6 := by
    intro u
    have hu := u.toNat_lt
    unfold bits
    omega
  have htop := (hfields (base ||| vregField n <<< 5 ||| vregField d)).1
  have hmid := (hfields (base ||| vregField n <<< 5 ||| vregField d)).2
  rw [hhigh, ← (hfields base).1] at htop
  rw [hhigh, ← (hfields base).2] at hmid
  rw [wordVregs?, vectorForm_congr htop hmid, hform, readWord, read_two hbase hd hn]
  rfl

theorem mapM_wordVregs {ws : List UInt32} {js : List Instr}
    (h : ws.mapM (readWord none) = some js) : ws.mapM wordVregs? = some (js.map vregs) := by
  induction ws generalizing js with
  | nil =>
    obtain rfl : [] = js := by simpa using h
    rfl
  | cons w ws ih =>
    rw [List.mapM_cons] at h
    simp only [Option.bind_eq_bind, Option.bind_eq_some_iff, Option.pure_def,
      Option.some.injEq] at h
    obtain ⟨j, hj, js', hjs, rfl⟩ := h
    simp [wordVregs_plain hj, ih hjs]

/-- A legible call names its registers, in as many instructions as it has words. -/
theorem Legible.names_words {i : Instr} (hi : i.Legible) (hclean : i.chunk.fault = none) :
    ∃ nss, i.words.mapM wordVregs? = some nss ∧ nss ≠ [] ∧ ∀ v, v ∈ nss.flatten ↔ v ∈ i.vregs := by
  have hcovered := hi.covered
  have hencodable := i.fault_iff.mp hclean
  cases i with
  | v3 base d n m =>
    obtain ⟨hd, hn, hm⟩ := hencodable
    refine ⟨[[d, n, m]], ?_, by simp, by simp [vregs]⟩
    rw [words_one (w := base ||| vregField m <<< 16 ||| vregField n <<< 5 ||| vregField d) rfl]
    simp [wordVregs_three hi hd hn hm]
  | v2 base d n =>
    obtain ⟨hd, hn⟩ := hencodable
    refine ⟨[[d, n]], ?_, by simp, by simp [vregs]⟩
    rw [words_one (w := base ||| vregField n <<< 5 ||| vregField d) rfl]
    simp [wordVregs_two hi hd hn]
  | movImm d imm =>
    obtain ⟨js, hread, hmoves, -⟩ := reads_back hcovered hencodable
    refine ⟨_, mapM_wordVregs hread, ?_, fun v => ?_⟩
    · have hwords : (movImm d imm).words = movImmWords d imm := wordsOf_le32 _
      rw [hwords, movImmWords, List.mapM_cons] at hread
      rintro hnil
      rw [List.map_eq_nil_iff.mp hnil] at hread
      simp [Option.bind_eq_some_iff] at hread
    · refine iff_of_false (fun hv => ?_) (by simp [vregs])
      obtain ⟨ns, hns, hv⟩ := List.mem_flatten.mp hv
      obtain ⟨j, hj, rfl⟩ := List.mem_map.mp hns
      obtain ⟨part, shift, rfl | rfl⟩ := hmoves j hj <;> simp [vregs] at hv
  | _ =>
    obtain ⟨js, hread, rfl⟩ := reads_back hcovered hencodable
    exact ⟨_, mapM_wordVregs hread, by simp, by simp [vregs, aliased, canonical]⟩

end Instr

end Arm64

end JitGemm
