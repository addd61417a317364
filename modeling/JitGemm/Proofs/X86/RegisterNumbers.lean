import JitGemm.Proofs.X86.Stream

/-!
# Register numbers of integer instructions

An encoding has four bits for the number of a general register. The registers of an address and of
the vector families are checked before anything is emitted; the integer forms cut every other
number down to its low four bits, so the code of one register is that of another one.
-/

namespace JitGemm.X86

open Code (Buffer)

-- ---------------------------------------------------------------------------
-- Operands
-- ---------------------------------------------------------------------------

namespace Instr

/-- Integer instructions, whatever their operands. -/
def IntegerCall : Instr → Prop
  | jmp _ | jcc .. | vzeroupper | sse .. | vex .. | evex .. => False
  | _ => True

def gprs : Instr → List Gpr
  | push r | pop r | movImm r _ | addImm r _ | subImm r _ | cmpImm r _ | shlImm r _ | neg r | inc r
  | dec r | load r _ | store _ r | lea r _ => [r]
  | mov d s | add d s | sub d s | xor d s | cmp d s | test d s | imul d s => [d, s]
  | _ => []

def address? : Instr → Option Address
  | load _ m | store m _ | lea _ m => some m
  | _ => none

/-- Renames the registers that are operands themselves. -/
def mapGprs (f : Gpr → Gpr) : Instr → Instr
  | push r => .push (f r)
  | pop r => .pop (f r)
  | mov d s => .mov (f d) (f s)
  | movImm d imm => .movImm (f d) imm
  | load d m => .load (f d) m
  | store m s => .store m (f s)
  | lea d m => .lea (f d) m
  | addImm r imm => .addImm (f r) imm
  | subImm r imm => .subImm (f r) imm
  | cmpImm r imm => .cmpImm (f r) imm
  | add d s => .add (f d) (f s)
  | sub d s => .sub (f d) (f s)
  | xor d s => .xor (f d) (f s)
  | cmp a b => .cmp (f a) (f b)
  | test a b => .test (f a) (f b)
  | imul d s => .imul (f d) (f s)
  | shlImm r n => .shlImm (f r) n
  | neg r => .neg (f r)
  | inc r => .inc (f r)
  | dec r => .dec (f r)
  | i => i

theorem gprs_canonical (i : Instr) : i.canonical.gprs = i.gprs := by
  cases i <;> rfl

theorem gprs_mapGprs (f : Gpr → Gpr) (i : Instr) : (i.mapGprs f).gprs = i.gprs.map f := by
  cases i <;> rfl

theorem address?_mapGprs (f : Gpr → Gpr) (i : Instr) : (i.mapGprs f).address? = i.address? := by
  cases i <;> rfl

/-- Addresses are all that an integer instruction is refused for. -/
theorem fault_address {i : Instr} (hi : i.IntegerCall) :
    i.chunk.fault = none ↔ ∀ a ∈ i.address?, Addressable a := by
  have hmem : ∀ {opcode : List UInt8} {reg : UInt8} {m : Address},
      (Code.Chunk.ofExcept (op64 opcode reg (.mem m))).fault = none ↔ Addressable m := by
    intro opcode reg m
    rw [← checkAddress_iff, op64, checkRm]
    cases checkAddress m <;> simp [Code.Chunk.ofExcept, bind, Except.bind, pure, Except.pure]
  cases i with
  | load | store | lea => simpa [chunk, address?] using hmem
  | jmp | jcc | vzeroupper | sse | vex | evex => exact hi.elim
  | _ => simp [chunk, address?]

end Instr

-- ---------------------------------------------------------------------------
-- Numbers cut down to four bits
-- ---------------------------------------------------------------------------

def foldGpr (r : Gpr) : Gpr := ⟨r.num &&& 15⟩

theorem foldGpr_le (r : Gpr) : (foldGpr r).num ≤ 15 :=
  UInt8.le_iff_toNat_le.mpr (by rw [foldGpr, UInt8.toNat_and]; exact Nat.and_le_right)

theorem foldGpr_eq_iff {r : Gpr} : foldGpr r = r ↔ r.num ≤ 15 := by
  constructor
  · intro h
    exact h ▸ foldGpr_le r
  · intro h
    rw [foldGpr, and_15 h]

/-- The fields of a register number are those of its low four bits. -/
theorem fields_fold (n : UInt8) : low3 (n &&& 15) = low3 n ∧ bit3 (n &&& 15) = bit3 n := by
  have hlow : (15 : UInt8) &&& 7 = 7 := by decide
  have hbit : (15 : UInt8) &&& 8 = 8 := by decide
  exact ⟨by rw [low3, UInt8.and_assoc, hlow, low3], by rw [bit3, UInt8.and_assoc, hbit, bit3]⟩

theorem Instr.chunk_fold (i : Instr) : (i.mapGprs foldGpr).chunk = i.chunk := by
  have hlow : ∀ r : Gpr, low3 (foldGpr r).num = low3 r.num := fun r => (fields_fold r.num).1
  have hbit : ∀ r : Gpr, bit3 (foldGpr r).num = bit3 r.num := fun r => (fields_fold r.num).2
  cases i with
  | push | pop => simp only [mapGprs, chunk, opReg, hlow, hbit]
  | load | store | lea => simp only [mapGprs, chunk, op64, rmBytes, memBytes, modrm, hlow, hbit]
  | movImm => simp only [mapGprs, chunk, movImmBytes, op64Reg, rmBytes, modrm, hlow, hbit]
  | addImm | subImm | cmpImm =>
    simp only [mapGprs, chunk, aluImm, op64Reg, rmBytes, modrm, hlow, hbit]
  | jmp | jcc | ret | vzeroupper | sse | vex | evex => rfl
  | _ => simp only [mapGprs, chunk, op64Reg, rmBytes, modrm, hlow, hbit]

theorem Instr.integer_fold {i : Instr} (hi : i.IntegerCall)
    (haddress : ∀ a ∈ i.address?, Addressable a) : (i.mapGprs foldGpr).Integer := by
  cases i with
  | load d m | store m d | lea d m =>
    exact ⟨foldGpr_le d, checkAddress_iff.mpr (haddress m rfl)⟩
  | mov d s | add d s | sub d s | xor d s | cmp d s | test d s | imul d s =>
    exact ⟨foldGpr_le d, foldGpr_le s⟩
  | ret => trivial
  | jmp | jcc | vzeroupper | sse | vex | evex => exact hi.elim
  | _ => exact foldGpr_le _

/-- Vector calls are refused wherever they name what their form cannot say. -/
theorem fault_vector {i : Instr} (hi : i.VectorCall) : i.chunk.fault = none ↔ i.Nameable := by
  refine ⟨fun h => Decidable.byContradiction fun hn => ?_, Instr.Nameable.fault⟩
  obtain ⟨e, he⟩ := refused_unnameable hi hn
  simp [he, Code.Chunk.ofExcept] at h

/-- An integer instruction is refused for its address only. Otherwise its code is read back with
every other register number cut down to four bits, and those are the registers that were asked for
exactly where no number is above 15. The vector families refuse what they cannot name. -/
theorem integer_registers_fold {i : Instr} (hi : i.IntegerCall) {b : Buffer}
    (hb : b.error = none) (rules : Rules) :
    ((b.put i.chunk).error = none ↔ ∀ a ∈ i.address?, Addressable a) ∧
      ((b.put i.chunk).error = none →
        ∃ code j, (b.put i.chunk).bytes.toList = b.bytes.toList ++ code ∧
          (∀ rest, decode rules (code ++ rest) = some (.plain j, rest)) ∧
          j = (i.mapGprs foldGpr).canonical ∧ j.address? = i.address? ∧
          (j.gprs = i.gprs ↔ ∀ r ∈ i.gprs, r.num ≤ 15)) ∧
      ∀ v : Instr, v.VectorCall → ((b.put v.chunk).error = none ↔ v.Nameable) := by
  have hrefused : (b.put i.chunk).error = none ↔ ∀ a ∈ i.address?, Addressable a := by
    rw [Buffer.error_put, i.fault_address hi, and_iff_right hb]
  refine ⟨hrefused, fun h => ?_, fun v hv => ?_⟩
  · refine ⟨i.chunk.bytes, (i.mapGprs foldGpr).canonical, Buffer.bytes_put b i.chunk, ?_, rfl, ?_,
      ?_⟩
    · rw [← i.chunk_fold]
      exact decode_integer (i.integer_fold hi (hrefused.mp h))
    · have hsame : (i.mapGprs foldGpr).canonical.address? = (i.mapGprs foldGpr).address? := by
        cases i <;> rfl
      rw [hsame, Instr.address?_mapGprs]
    · have hsame := List.map_inj_left (l := i.gprs) (f := foldGpr) (g := id)
      rw [List.map_id] at hsame
      rw [Instr.gprs_canonical, Instr.gprs_mapGprs, hsame]
      exact forall₂_congr fun r _ => foldGpr_eq_iff
  · rw [Buffer.error_put, fault_vector hv, and_iff_right hb]

/-- A sum of two registers of which there is only one. -/
theorem sum_registers_fold :
    (Instr.add ⟨21⟩ ⟨3⟩).IntegerCall ∧ ({} : Buffer).error = none ∧
      ∃ code j, (({} : Buffer).put (Instr.add ⟨21⟩ ⟨3⟩).chunk).bytes.toList = code ∧
        (∀ rest, decode ⟨fun _ => false, fun _ => 1⟩ (code ++ rest) = some (.plain j, rest)) ∧
        j = .add ⟨5⟩ ⟨3⟩ := by
  obtain ⟨-, hread, -⟩ := integer_registers_fold (i := .add ⟨21⟩ ⟨3⟩) trivial (b := {}) rfl
    ⟨fun _ => false, fun _ => 1⟩
  obtain ⟨code, j, hcode, hdecode, hj, -⟩ := hread rfl
  exact ⟨trivial, rfl, code, j, hcode, hdecode, hj⟩

/-- Each of the three paths to a register field takes a number above 15 without an error, and the
code is that of another register. -/
theorem sixteenth_renamed :
    let code (i : Instr) := (({} : Buffer).put i.chunk).bytes.toList
    let read (i : Instr) := decode ⟨fun _ => false, fun _ => 1⟩ (code i)
    (∀ i ∈ [Instr.mov ⟨16⟩ ⟨0⟩, .push ⟨31⟩, .movImm ⟨29⟩ 0x100000000],
        i.IntegerCall ∧ (({} : Buffer).put i.chunk).error = none) ∧
      read (.mov ⟨16⟩ ⟨0⟩) = some (.plain (.mov ⟨0⟩ ⟨0⟩), []) ∧
      read (.push ⟨31⟩) = some (.plain (.push ⟨15⟩), []) ∧
      read (.movImm ⟨29⟩ 0x100000000) = some (.plain (.movImm ⟨13⟩ 0x100000000), []) := by
  refine ⟨?_, ?_, ?_, ?_⟩
  · simp only [List.forall_mem_cons, List.not_mem_nil, false_implies, implies_true,
      Instr.IntegerCall]
    decide
  all_goals decide

end JitGemm.X86
