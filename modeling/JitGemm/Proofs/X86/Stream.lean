import JitGemm.Proofs.Code.Growth
import JitGemm.Proofs.X86.RoundTrip

/-!
# Reading a stream of instructions back

Calls of an encoder leave a stream of bytes without any separators. Read from the front, one
instruction after the other, the stream gives back the calls that left it: each instruction says by
itself where it ends. Calls that are refused leave nothing in the stream.
-/

namespace JitGemm.X86

open Code (Buffer)

-- ---------------------------------------------------------------------------
-- Reading to the end
-- ---------------------------------------------------------------------------

/-- Reads instructions off the front, the first one as number `n`, until no byte is left. What has
no bytes is no instruction. -/
def readAll {α : Type} (read : Nat → List UInt8 → Option (α × List UInt8)) (n : Nat)
    (bytes : List UInt8) : Option (List α) :=
  if bytes = [] then some [] else
    match read n bytes with
    | none => none
    | some (i, rest) =>
      if _ : rest.length < bytes.length then (readAll read (n + 1) rest).map (i :: ·) else none
termination_by bytes.length

section

variable {α β : Type} {read : Nat → List UInt8 → Option (β × List UInt8)}

theorem readAll_nil (n : Nat) : readAll read n [] = some [] := by
  rw [readAll, if_pos rfl]

theorem readAll_append {n : Nat} {first rest : List UInt8} {i : β} (hnil : read n [] = none)
    (h : ∀ rest, read n (first ++ rest) = some (i, rest)) :
    readAll read n (first ++ rest) = (readAll read (n + 1) rest).map (i :: ·) := by
  have hfirst : 0 < first.length := by
    refine List.length_pos_iff.mpr ?_
    rintro rfl
    exact absurd (hnil.symm.trans (h [])) (by simp)
  have hne : first ++ rest ≠ [] := by
    rintro heq
    simp [(List.append_eq_nil_iff.mp heq).1] at hfirst
  have hshort : rest.length < (first ++ rest).length := by
    rw [List.length_append]
    omega
  rw [readAll, if_neg hne, h rest]
  simp only [dif_pos hshort]

variable (read) in
theorem readAll_flatMap {write : α → List UInt8} {back : α → β} {is : List α} {n : Nat}
    (hnil : ∀ m, read m [] = none)
    (h : ∀ k i, is[k]? = some i → ∀ rest, read (n + k) (write i ++ rest) = some (back i, rest)) :
    readAll read n (is.flatMap write) = some (is.map back) := by
  induction is generalizing n with
  | nil => exact readAll_nil n
  | cons i is ih =>
    have htail : ∀ k i, is[k]? = some i →
        ∀ rest, read (n + 1 + k) (write i ++ rest) = some (back i, rest) := by
      intro k j hj rest
      rw [Nat.add_assoc, Nat.add_comm 1]
      exact h (k + 1) j hj rest
    rw [List.flatMap_cons, readAll_append (hnil n) (h 0 i rfl), ih htail]
    rfl

end

-- ---------------------------------------------------------------------------
-- What calls leave behind
-- ---------------------------------------------------------------------------

def emitted (is : List Instr) : Buffer := is.foldl (fun b i => b.put i.chunk) {}

theorem bytes_emitted (is : List Instr) :
    (emitted is).bytes.toList = is.flatMap (·.chunk.bytes) :=
  Buffer.bytes_foldl_put Instr.chunk is {}

theorem error_emitted (is : List Instr) :
    (emitted is).error = none ↔ ∀ i ∈ is, i.chunk.fault = none := by
  rw [emitted, Buffer.error_foldl_put Instr.chunk, and_iff_right rfl]

-- ---------------------------------------------------------------------------
-- Integer instructions
-- ---------------------------------------------------------------------------

/-- An address that ModRM and SIB can say, whatever its displacement. -/
def Addressable (a : Address) : Prop :=
  a.base.num ≤ 15 ∧ ∀ i ∈ a.index, i.reg ≠ .rsp ∧ i.reg.num ≤ 15 ∧ i.scale ∈ [1, 2, 4, 8]

instance (a : Address) : Decidable (Addressable a) :=
  inferInstanceAs (Decidable (_ ∧ _))

theorem checkAddress_iff {a : Address} : checkAddress a = .ok () ↔ Addressable a := by
  constructor
  · intro h
    obtain ⟨hbase, hindex⟩ := checkAddress_ok h
    refine ⟨hbase, fun i hi => ?_⟩
    obtain ⟨hstack, hnum, hscale⟩ := hindex i hi
    exact ⟨hstack, hnum, by simpa using hscale⟩
  · rintro ⟨hbase, hindex⟩
    unfold checkAddress
    split
    · rename_i i hi
      obtain ⟨hstack, hnum, hscale⟩ := hindex i hi
      have hscale : i.scale = 1 ∨ i.scale = 2 ∨ i.scale = 4 ∨ i.scale = 8 := by
        simpa using hscale
      rcases hscale with h | h | h | h <;>
        simp [hstack, h, UInt8.not_lt.mpr hbase, UInt8.not_lt.mpr hnum]
    · simp [UInt8.not_lt.mpr hbase]

theorem fault_integer {i : Instr} (h : i.Integer) : i.chunk.fault = none := by
  cases i with
  | load r m | store m r | lea r m => simp [Instr.chunk, op64_mem h.2, Code.Chunk.ofExcept]
  | jmp | jcc | vzeroupper | sse | vex | evex => exact h.elim
  | _ => rfl

/-- A sequence of integer instructions is accepted and read back from its bytes, to the last one,
with shift counts cut down to six bits. -/
theorem integers_read_back (rules : Rules) {is : List Instr} (h : ∀ i ∈ is, i.Integer) :
    (emitted is).error = none ∧
      readAll (fun _ => decode rules) 0 (emitted is).bytes.toList =
        some (is.map fun i => .plain i.canonical) := by
  refine ⟨(error_emitted is).mpr fun i hi => fault_integer (h i hi), ?_⟩
  rw [bytes_emitted]
  exact readAll_flatMap (fun _ => decode rules) (fun _ => rfl) fun k i hi rest =>
    decode_integer (h i (List.mem_of_getElem? hi)) rest

/-- Addresses with every special case of base and index, immediates at the ends of their forms, and
a shift count above 63. -/
def assortedIntegers : List Instr :=
  [.push .r12, .load .rax (.past .rsp 16), .store (.past .r13 0) .r9,
    .lea .rbx { base := .r12, index := some ⟨.r12, 8⟩, disp := -129 }, .addImm .rdi 127,
    .subImm .r15 128, .movImm .r11 (-2147483649), .movImm .rcx (-1), .shlImm .rbp 200,
    .imul .r8 .rsi, .ret]

theorem assortedIntegers_read_back :
    (∀ i ∈ assortedIntegers, i.Integer) ∧ (emitted assortedIntegers).error = none ∧
      readAll (fun _ => decode ⟨fun _ => false, fun _ => 64⟩) 0
          (emitted assortedIntegers).bytes.toList =
        some (assortedIntegers.map fun i => .plain i.canonical) := by
  have hinteger : ∀ i ∈ assortedIntegers, i.Integer := by
    simp only [assortedIntegers, List.forall_mem_cons, List.not_mem_nil, false_implies,
      implies_true, Instr.Integer, checkAddress_iff]
    decide
  exact ⟨hinteger, integers_read_back _ hinteger⟩

-- ---------------------------------------------------------------------------
-- Vector instructions
-- ---------------------------------------------------------------------------

/-- Calls of the three vector families, with an opcode that the map does not leave to others. -/
def Instr.VectorCall : Instr → Prop
  | .sse op .. => ¬ op.IsEscape
  | .vex .. | .evex .. => True
  | _ => False

def Rm.Within (limit : UInt8) : Rm → Prop
  | .reg n => n ≤ limit
  | .mem a => Addressable a

/-- Registers and addresses that the form of a vector instruction can name. -/
def Instr.Nameable : Instr → Prop
  | .sse _ reg rm _ => reg ≤ 15 ∧ rm.Within 15
  | .vex _ _ _ reg vvvv rm _ => (reg ≤ 15 ∧ vvvv ≤ 15) ∧ rm.Within 15
  | .evex _ _ reg vvvv rm _ => (reg ≤ 31 ∧ vvvv ≤ 31) ∧ rm.Within 31
  | _ => False

/-- Whether the rules tell of the immediate byte of a vector instruction, or of its absence. -/
def Instr.Announced (rules : Rules) : Instr → Prop
  | .sse op _ _ imm | .vex op _ _ _ _ _ imm | .evex op _ _ _ _ imm => imm.isSome = rules.hasImm op
  | _ => False

instance (limit : UInt8) (rm : Rm) : Decidable (rm.Within limit) :=
  match rm with
  | .reg n => inferInstanceAs (Decidable (n ≤ limit))
  | .mem a => inferInstanceAs (Decidable (Addressable a))

instance (i : Instr) : Decidable i.Nameable :=
  match i with
  | .sse _ reg rm _ => inferInstanceAs (Decidable (reg ≤ 15 ∧ rm.Within 15))
  | .vex _ _ _ reg vvvv rm _ =>
    inferInstanceAs (Decidable ((reg ≤ 15 ∧ vvvv ≤ 15) ∧ rm.Within 15))
  | .evex _ _ reg vvvv rm _ =>
    inferInstanceAs (Decidable ((reg ≤ 31 ∧ vvvv ≤ 31) ∧ rm.Within 31))
  | .push _ | .pop _ | .mov .. | .movImm .. | .load .. | .store .. | .lea .. | .addImm ..
  | .subImm .. | .cmpImm .. | .add .. | .sub .. | .xor .. | .cmp .. | .test .. | .imul ..
  | .shlImm .. | .neg _ | .inc _ | .dec _ | .jmp _ | .jcc .. | .ret | .vzeroupper =>
    inferInstanceAs (Decidable False)

theorem within_iff {limit : UInt8} {rm : Rm} :
    rm.Within limit ↔ regAbove limit rm = false ∧ checkRm rm = .ok () := by
  cases rm with
  | reg n => simp [Rm.Within, regAbove, checkRm]
  | mem a => simp [Rm.Within, regAbove, checkRm, checkAddress_iff]

theorem Instr.Nameable.vector {rules : Rules} {i : Instr} (h : i.Nameable) (hc : i.VectorCall)
    (himm : i.Announced rules) : i.Vector rules := by
  cases i with
  | sse op reg rm imm =>
    obtain ⟨habove, hrm⟩ := within_iff.mp h.2
    exact ⟨h.1, habove, hrm, himm, hc⟩
  | vex op w l256 reg vvvv rm imm | evex op w reg vvvv rm imm =>
    obtain ⟨habove, hrm⟩ := within_iff.mp h.2
    exact ⟨h.1, habove, hrm, himm⟩
  | _ => exact h.elim

theorem Instr.Nameable.fault {i : Instr} (h : i.Nameable) : i.chunk.fault = none := by
  cases i with
  | sse op reg rm imm =>
    obtain ⟨habove, hrm⟩ := within_iff.mp h.2
    simp [Instr.chunk, sseBytes_eq imm h.1 habove hrm, Code.Chunk.ofExcept]
  | vex op w l256 reg vvvv rm imm =>
    obtain ⟨habove, hrm⟩ := within_iff.mp h.2
    simp [Instr.chunk, vexBytes_eq imm h.1.1 h.1.2 habove hrm, Code.Chunk.ofExcept]
  | evex op w reg vvvv rm imm =>
    obtain ⟨habove, hrm⟩ := within_iff.mp h.2
    simp [Instr.chunk, evexBytes_eq imm h.1.1 h.1.2 habove hrm, Code.Chunk.ofExcept]
  | _ => exact h.elim

/-- Registers are looked at first, those of the last operand included, then its address. -/
theorem refused_by_checks {beyond : Bool} {limit : UInt8} {fault : OperandFault} {rm : Rm}
    {bytes : List UInt8} (h : beyond = false → ¬ rm.Within limit) :
    ∃ e, (do
      if beyond || regAbove limit rm then throw fault
      checkRm rm
      return bytes : Except OperandFault (List UInt8)) = .error e := by
  cases hbad : beyond || regAbove limit rm with
  | true => exact ⟨fault, rfl⟩
  | false =>
    rw [Bool.or_eq_false_iff] at hbad
    cases hrm : checkRm rm with
    | ok => exact absurd (within_iff.mpr ⟨hbad.2, hrm⟩) (h hbad.1)
    | error e => exact ⟨e, rfl⟩

/-- A call that names what its form cannot say leaves a fault and no byte. -/
theorem refused_unnameable {i : Instr} (hc : i.VectorCall) (h : ¬ i.Nameable) :
    ∃ e, i.chunk = .ofExcept (.error e) := by
  cases i with
  | sse op reg rm imm =>
    obtain ⟨e, he⟩ : ∃ e, sseBytes op reg rm imm = .error e :=
      refused_by_checks fun hregs hrm => h ⟨by simpa using hregs, hrm⟩
    exact ⟨e, by rw [Instr.chunk, he]⟩
  | vex op w l256 reg vvvv rm imm =>
    obtain ⟨e, he⟩ : ∃ e, vexBytes op w l256 reg vvvv rm imm = .error e :=
      refused_by_checks fun hregs hrm => h ⟨by simpa using hregs, hrm⟩
    exact ⟨e, by rw [Instr.chunk, he]⟩
  | evex op w reg vvvv rm imm =>
    obtain ⟨e, he⟩ : ∃ e, evexBytes op w reg vvvv rm imm = .error e :=
      refused_by_checks fun hregs hrm => h ⟨by simpa using hregs, hrm⟩
    exact ⟨e, by rw [Instr.chunk, he]⟩
  | _ => exact hc.elim

theorem flatMap_nameable {is : List Instr} (hc : ∀ i ∈ is, i.VectorCall) :
    is.flatMap (·.chunk.bytes) = (is.filter (·.Nameable)).flatMap (·.chunk.bytes) := by
  induction is with
  | nil => rfl
  | cons i is ih =>
    rw [List.forall_mem_cons] at hc
    rw [List.flatMap_cons, ih hc.2]
    by_cases h : i.Nameable
    · rw [List.filter_cons_of_pos (by simpa using h), List.flatMap_cons]
    · obtain ⟨e, he⟩ := refused_unnameable hc.1 h
      rw [List.filter_cons_of_neg (by simpa using h), he]
      rfl

/-- The mode field of the ModRM byte of an EVEX instruction, which stands behind a head of four
bytes and the opcode. -/
def evexMode (bytes : List UInt8) : Option UInt8 := (bytes[5]?).map fun m : UInt8 => m >>> 6

theorem evexMode_mem {op : Opcode} {w : Bool} {reg vvvv : UInt8} {a : Address}
    {imm : Option UInt8} (h : (Instr.evex op w reg vvvv (.mem a) imm).Nameable) :
    evexMode (Instr.evex op w reg vvvv (.mem a) imm).chunk.bytes = some (dispMode a false) := by
  obtain ⟨habove, hrm⟩ := within_iff.mp h.2
  have hmode := fun rm =>
    (fields (dispMode a false) (Nat.lt_succ_of_lt (dispMode_lt a false)) reg rm).1
  simp only [Instr.chunk, evexBytes_eq imm h.1.1 h.1.2 habove hrm, Code.Chunk.ofExcept, evexMode,
    evexHead, rmBytes, memBytes, List.cons_append, List.nil_append, List.append_assoc,
    List.getElem?_cons_succ, List.getElem?_cons_zero, Option.map_some, modrm, hmode]

/-- Calls of the vector families, each told whether an immediate byte follows: what the forms can
name is accepted and read back, to the last byte and in whatever unit the decoder counts one-byte
displacements of EVEX, for none is written; every other call adds no byte and leaves an error. -/
theorem vectors_read_back (rules : Nat → Rules) {is : List Instr}
    (hc : ∀ i ∈ is, i.VectorCall)
    (himm : ∀ (n : Nat) (i : Instr),
      (is.filter (·.Nameable))[n]? = some i → i.Announced (rules n)) :
    readAll (fun n => decodeVector (rules n)) 0 (emitted is).bytes.toList =
        some (is.filter (·.Nameable)) ∧
      ((emitted is).error = none ↔ ∀ i ∈ is, i.Nameable) ∧
      (∀ i ∈ is, ¬ i.Nameable → ∀ b : Buffer,
        (b.put i.chunk).bytes = b.bytes ∧ (b.put i.chunk).error ≠ none) ∧
      ∀ op w reg vvvv a imm, .evex op w reg vvvv (.mem a) imm ∈ is.filter (·.Nameable) →
        ∃ mode, evexMode (Instr.evex op w reg vvvv (.mem a) imm).chunk.bytes = some mode ∧
          mode ≠ 1 := by
  refine ⟨?_, ?_, fun i hi hn b => ?_, fun op w reg vvvv a imm hi => ?_⟩
  · rw [bytes_emitted, flatMap_nameable hc]
    have hback : ∀ k i, (is.filter (·.Nameable))[k]? = some i → ∀ rest,
        decodeVector (rules (0 + k)) (i.chunk.bytes ++ rest) = some (id i, rest) := by
      intro k i hi rest
      obtain ⟨hmem, hname⟩ := List.mem_filter.mp (List.mem_of_getElem? hi)
      have hvector : i.Vector (rules k) :=
        Instr.Nameable.vector (by simpa using hname) (hc i hmem) (himm k i hi)
      rw [Nat.zero_add]
      exact decodeVector_chunk hvector rest
    have hstream := readAll_flatMap (fun n => decodeVector (rules n)) (fun _ => rfl) hback
    simpa using hstream
  · rw [error_emitted]
    refine ⟨fun h i hi => ?_, fun h i hi => (h i hi).fault⟩
    refine Decidable.byContradiction fun hn => ?_
    obtain ⟨e, he⟩ := refused_unnameable (hc i hi) hn
    simpa [he, Code.Chunk.ofExcept] using h i hi
  · obtain ⟨e, he⟩ := refused_unnameable (hc i hi) hn
    rw [he]
    exact ⟨by simp [Buffer.put, Code.Chunk.ofExcept], by simp [Code.Chunk.ofExcept]⟩
  · have hname : (Instr.evex op w reg vvvv (.mem a) imm).Nameable := by
      simpa using (List.mem_filter.mp hi).2
    refine ⟨_, evexMode_mem hname, ?_⟩
    unfold dispMode
    simp only [Bool.false_and, Bool.false_eq_true, if_false]
    split <;> decide

/-- Each form, with and without memory operands and an immediate byte, and two calls that no form
can say: a register above 15, and the stack pointer as an index. -/
def assortedVectors : List Instr :=
  [.sse ⟨.pF3, .m0F, 0x10⟩ 9 (.mem (.past .r13 0)) none,
    .sse ⟨.none, .m0F, 0x58⟩ 16 (.reg 3) none,
    .sse ⟨.p66, .m0F3A, 0x0A⟩ 1 (.reg 14) (some 4),
    .vex ⟨.none, .m0F, 0x58⟩ false true 2 15 (.reg 3) none,
    .vex ⟨.p66, .m0F38, 0xB8⟩ false true 2 9 (.mem { base := .rsp, index := some ⟨.rsp, 1⟩ }) none,
    .vex ⟨.p66, .m0F38, 0xB8⟩ true false 2 9 (.mem { base := .rsp, index := some ⟨.r12, 8⟩ }) none,
    .evex ⟨.p66, .m0F38, 0xB8⟩ false 30 17 (.mem (.past .r12 64)) none,
    .evex ⟨.none, .m0F, 0x58⟩ true 4 31 (.reg 22) none]

theorem assortedVectors_read_back :
    let rules : Nat → Rules := fun n => ⟨fun _ => n == 1, fun _ => 64⟩
    let accepted := assortedVectors.filter (·.Nameable)
    (∀ i ∈ assortedVectors, i.VectorCall) ∧
      (∀ (n : Nat) (i : Instr), accepted[n]? = some i → i.Announced (rules n)) ∧
      accepted.length = 6 ∧
      readAll (fun n => decodeVector (rules n)) 0 (emitted assortedVectors).bytes.toList =
        some accepted := by
  intro rules accepted
  have hcalls : ∀ i ∈ assortedVectors, i.VectorCall := by
    simp only [assortedVectors, List.forall_mem_cons, List.not_mem_nil, false_implies, implies_true,
      Instr.VectorCall, Opcode.IsEscape]
    decide
  have hrules : ∀ (n : Nat) (i : Instr), accepted[n]? = some i → i.Announced (rules n) := by
    rintro (_ | _ | _ | _ | _ | _ | n) i ⟨⟩ <;> rfl
  exact ⟨hcalls, hrules, by decide, (vectors_read_back rules hcalls hrules).1⟩

end JitGemm.X86
