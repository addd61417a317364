import JitGemm.Gemm.Arith
import JitGemm.Proofs.X86.Memory
import JitGemm.Proofs.X86.RoundTrip

/-!
# Running x86-64 code

The architectural effect of the instructions that kernels consist of, on registers, the zero flag
and memory. The lane operations on f32 are those of a record and mean nothing in particular; those
on i32 wrap. An instruction outside this set stops the machine, and so does an access that needs an
aligned address and has none. Code lies in memory of its own, which no store reaches.
-/

namespace JitGemm.X86

def laneOf (i : Nat) : Fin 16 := Fin.ofNat 16 i

/-- Registers of sixteen lanes, the widest there are; narrower ones are the low lanes. -/
structure Machine where
  gpr : Gpr → UInt64
  vec : Vreg → Fin 16 → UInt32
  /-- The zero flag. No branch of a kernel looks at another one. -/
  zf : Bool
  mem : Memory

-- ---------------------------------------------------------------------------
-- Formats
-- ---------------------------------------------------------------------------

def takesImm (op : Opcode) : Bool :=
  match op.map with
  | .m0F3A => true
  | .m0F38 => false
  | .m0F => [0x70, 0x71, 0x72, 0x73, 0xA4, 0xAC, 0xBA, 0xC2, 0xC4, 0xC5, 0xC6].contains op.byte

/-- Broadcasts read one lane, everything else a whole register. -/
def dispUnit (op : Opcode) : Int32 :=
  if op.map = .m0F38 ∧ (op.byte = 0x18 ∨ op.byte = 0x58) then 4 else 64

def architecture : Rules where
  hasImm := takesImm
  unit := dispUnit

-- ---------------------------------------------------------------------------
-- Registers and memory
-- ---------------------------------------------------------------------------

namespace Machine

variable (s : Machine)

def setGpr (r : Gpr) (w : UInt64) : Machine :=
  { s with gpr := fun q => if q = r then w else s.gpr q }

/-- Arithmetic leaves its result in a register and its verdict in the zero flag. -/
def setResult (r : Gpr) (w : UInt64) : Machine := { s.setGpr r w with zf := w == 0 }

def address (a : Address) : UInt64 :=
  s.gpr a.base + (a.index.elim 0 fun i => s.gpr i.reg * i.scale.toUInt64) +
    a.disp.toInt64.toUInt64

def lanesAt (a : UInt64) (i : Fin 16) : UInt32 := s.mem.read32 (a + UInt64.ofNat (4 * i))

def source : Rm → Fin 16 → UInt32
  | .reg n => s.vec ⟨n⟩
  | .mem a => s.lanesAt (s.address a)

/-- Whether an operand may stand where memory has to be aligned to 16 bytes. -/
def aligned : Rm → Bool
  | .reg _ => true
  | .mem a => s.address a &&& 15 == 0

def push (w : UInt64) : Machine :=
  let top := s.gpr .rsp - 8
  { s.setGpr .rsp top with mem := s.mem.write64 top w }

def pop (r : Gpr) : Machine :=
  (s.setGpr .rsp (s.gpr .rsp + 8)).setGpr r (s.mem.read64 (s.gpr .rsp))

end Machine

/-- How many lanes a vector instruction works on, and whether it keeps the lanes above them, as the
legacy family does, or clears them. -/
structure Form where
  lanes : Nat
  keeps : Bool
  deriving DecidableEq, Repr

namespace Form

def legacy : Form := ⟨4, true⟩
def vex (l256 : Bool) : Form := ⟨if l256 then 8 else 4, false⟩
def evex : Form := ⟨16, false⟩

end Form

namespace Machine

variable (s : Machine)

def setVec (f : Form) (d : UInt8) (lanes : Fin 16 → UInt32) : Machine :=
  { s with vec := fun v i =>
      if v = ⟨d⟩ then if i < f.lanes then lanes i else if f.keeps then s.vec v i else 0
      else s.vec v i }

def storeVec (f : Form) (a : UInt64) (lanes : Fin 16 → UInt32) : Machine :=
  { s with mem := s.mem.writeWords a f.lanes fun i => lanes (laneOf i) }

end Machine

-- ---------------------------------------------------------------------------
-- Vector instructions
-- ---------------------------------------------------------------------------

/-- What a vector instruction does. -/
inductive VectorKind where
  | move
  /-- A move that needs alignment. -/
  | moveAligned
  | store
  | xor
  | add
  | mul
  | addInt
  | mulInt
  /-- The second operand times the third, plus the first. -/
  | mulAdd
  | broadcast
  /-- One lane from memory, zeros above it. -/
  | single
  /-- Two lanes of each operand. -/
  | shuffle
  | shuffleInt
  deriving DecidableEq, Repr

def Opcode.kind? (op : Opcode) : Option VectorKind :=
  match op.pp, op.map, op.byte with
  | .none, .m0F, 0x10 | .pF3, .m0F, 0x6F => some .move
  | .none, .m0F, 0x28 => some .moveAligned
  | .none, .m0F, 0x11 | .pF3, .m0F, 0x7F => some .store
  | .none, .m0F, 0x57 | .p66, .m0F, 0xEF => some .xor
  | .none, .m0F, 0x58 => some .add
  | .none, .m0F, 0x59 => some .mul
  | .p66, .m0F, 0xFE => some .addInt
  | .p66, .m0F38, 0x40 => some .mulInt
  | .p66, .m0F38, 0xB8 => some .mulAdd
  | .p66, .m0F38, 0x18 | .p66, .m0F38, 0x58 => some .broadcast
  | .pF3, .m0F, 0x10 | .p66, .m0F, 0x6E => some .single
  | .none, .m0F, 0xC6 => some .shuffle
  | .p66, .m0F, 0x70 => some .shuffleInt
  | _, _, _ => none

/-- Kinds with an immediate byte. -/
def VectorKind.wantsImm (k : VectorKind) : Bool := k == .shuffle || k == .shuffleInt

/-- Lane `i` of a shuffle: two bits of the immediate pick a lane of the same 128 bits. -/
def picked (imm : UInt8) (i : Fin 16) : Fin 16 :=
  laneOf (i / 4 * 4 + (imm >>> UInt8.ofNat (2 * (i % 4)) &&& 3).toNat)

section

variable (ar : Arith UInt32)

/-- The operation of a two-source kind on one lane. -/
def VectorKind.lane? : VectorKind → Option (UInt32 → UInt32 → UInt32)
  | .xor => some (· ^^^ ·)
  | .add => some ar.add
  | .mul => some ar.mul
  | .addInt => some (· + ·)
  | .mulInt => some (· * ·)
  | _ => none

namespace Machine

variable (s : Machine)

/-- What an instruction of a kind does; `n` is the immediate byte of those that have one. The legacy
family takes its destination as first source, wants memory sources of arithmetic aligned, and has
neither broadcast nor multiply-add; where there is no first source its register field has to be
zero. -/
def perform (f : Form) (k : VectorKind) (reg first : UInt8) (rm : Rm) (n : UInt8) :
    Option Machine :=
  match k with
  | .move => if f.keeps || first == 0 then some (s.setVec f reg (s.source rm)) else none
  | .moveAligned =>
    if (f.keeps || first == 0) && s.aligned rm then some (s.setVec f reg (s.source rm)) else none
  | .store =>
    match rm with
    | .reg _ => none
    | .mem a =>
      if f.keeps || first == 0 then some (s.storeVec f (s.address a) (s.vec ⟨reg⟩)) else none
  | .mulAdd =>
    if f.keeps then none
    else some (s.setVec f reg fun i => ar.fma (s.vec ⟨first⟩ i) (s.source rm i) (s.vec ⟨reg⟩ i))
  | .broadcast =>
    if !f.keeps && first == 0 then some (s.setVec f reg fun _ => s.source rm (laneOf 0)) else none
  | .single =>
    match rm with
    | .reg _ => none
    | .mem _ =>
      if f.lanes = 4 && (f.keeps || first == 0) then
        some (s.setVec f reg fun i => if i.val = 0 then s.source rm (laneOf 0) else 0)
      else none
  | .shuffle =>
    if f.keeps && !s.aligned rm then none else
      some (s.setVec f reg fun i =>
        if i.val % 4 < 2 then s.vec ⟨first⟩ (picked n i)
        else s.source rm (picked n i))
  | .shuffleInt =>
    if f.keeps && !s.aligned rm || !f.keeps && first != 0 then none
    else some (s.setVec f reg fun i => s.source rm (picked n i))
  | k => (k.lane? ar).bind fun g =>
    if f.keeps && !s.aligned rm then none
    else some (s.setVec f reg fun i => g (s.vec ⟨first⟩ i) (s.source rm i))

/-- One vector instruction, with an immediate byte just where its kind has one. -/
def vector (f : Form) (op : Opcode) (reg first : UInt8) (rm : Rm) (imm : Option UInt8) :
    Option Machine :=
  match op.kind? with
  | none => none
  | some k =>
    if imm.isSome = k.wantsImm then s.perform ar f k reg first rm (imm.getD 0) else none

variable {ar s}

theorem vector_plain {op : Opcode} {k : VectorKind} (hk : op.kind? = some k)
    (hplain : k.wantsImm = false) (f : Form) (reg first : UInt8) (rm : Rm) :
    s.vector ar f op reg first rm none = s.perform ar f k reg first rm 0 := by
  simp [vector, hk, hplain]

theorem vector_imm {op : Opcode} {k : VectorKind} (hk : op.kind? = some k)
    (himm : k.wantsImm = true) (f : Form) (reg first : UInt8) (rm : Rm) (n : UInt8) :
    s.vector ar f op reg first rm (some n) = s.perform ar f k reg first rm n := by
  simp [vector, hk, himm]

variable (ar s)

-- ---------------------------------------------------------------------------
-- All instructions
-- ---------------------------------------------------------------------------

/-- Clears everything above the low 128 bits. -/
def clearUpper : Machine :=
  { s with vec := fun v i => if v.num ≤ 15 ∧ 4 ≤ i.val then 0 else s.vec v i }

/-- One instruction other than branches and returns. -/
def exec (i : Instr) : Option Machine :=
  match i with
  | .push r => some (s.push (s.gpr r))
  | .pop r => some (s.pop r)
  | .mov d r => some (s.setGpr d (s.gpr r))
  | .movImm d imm => some (s.setGpr d imm.toUInt64)
  | .load d m => some (s.setGpr d (s.mem.read64 (s.address m)))
  | .store m r => some { s with mem := s.mem.write64 (s.address m) (s.gpr r) }
  | .lea d m => some (s.setGpr d (s.address m))
  | .addImm r imm => some (s.setResult r (s.gpr r + imm.toInt64.toUInt64))
  | .subImm r imm => some (s.setResult r (s.gpr r - imm.toInt64.toUInt64))
  | .cmpImm r imm => some { s with zf := s.gpr r == imm.toInt64.toUInt64 }
  | .add d r => some (s.setResult d (s.gpr d + s.gpr r))
  | .sub d r => some (s.setResult d (s.gpr d - s.gpr r))
  | .xor d r => some (s.setResult d (s.gpr d ^^^ s.gpr r))
  | .cmp a b => some { s with zf := s.gpr a == s.gpr b }
  | .test a b => some { s with zf := s.gpr a &&& s.gpr b == 0 }
  | .neg r => some (s.setResult r (-s.gpr r))
  | .inc r => some (s.setResult r (s.gpr r + 1))
  | .dec r => some (s.setResult r (s.gpr r - 1))
  | .vzeroupper => some s.clearUpper
  | .sse op reg rm imm => s.vector ar .legacy op reg reg rm imm
  | .vex op w l256 reg vvvv rm imm =>
    if w then none else s.vector ar (.vex l256) op reg vvvv rm imm
  | .evex op w reg vvvv rm imm => if w then none else s.vector ar .evex op reg vvvv rm imm
  | _ => none

end Machine

-- ---------------------------------------------------------------------------
-- Steps
-- ---------------------------------------------------------------------------

/-- Where a run is: at an offset of the code, or back at a return address. -/
inductive Config where
  | at (offset : Nat) (s : Machine)
  | left (address : UInt64) (s : Machine)

/-- A branch that lands before the code, or anywhere after its end, has nothing to go on with. -/
def jump (offset : Nat) (distance : Int32) : Option Nat :=
  let target := offset + distance.toInt
  if 0 ≤ target then some target.toNat else none

/-- Decodes and carries out the instruction at the current offset. -/
def Config.step? (code : List UInt8) : Config → Option Config
  | .left .. => none
  | .at offset s => do
    let (op, rest) ← decode architecture (code.drop offset)
    let next := code.length - rest.length
    match op with
    | .plain .ret => some (.left (s.mem.read64 (s.gpr .rsp)) (s.setGpr .rsp (s.gpr .rsp + 8)))
    | .plain i => (s.exec ar i).map (.at next)
    | .jmp distance => (jump next distance).map (.at · s)
    | .jcc .zero distance => if s.zf then (jump next distance).map (.at · s) else some (.at next s)
    | .jcc .notZero distance =>
      if s.zf then some (.at next s) else (jump next distance).map (.at · s)
    | .jcc _ _ => none

inductive Runs (code : List UInt8) : Config → Config → Prop where
  | refl (c : Config) : Runs code c c
  | step {a b c : Config} (h : a.step? ar code = some b) (hr : Runs code b c) : Runs code a c

theorem Runs.trans {code : List UInt8} {a b c : Config} (h : Runs ar code a b)
    (h' : Runs ar code b c) : Runs ar code a c := by
  induction h with
  | refl => exact h'
  | step hs _ ih => exact .step hs (ih h')

end

-- ---------------------------------------------------------------------------
-- Fields after updates
-- ---------------------------------------------------------------------------

namespace Machine

variable (s : Machine)

@[simp] theorem setGpr_gpr (r q : Gpr) (w : UInt64) :
    (s.setGpr r w).gpr q = if q = r then w else s.gpr q := rfl

@[simp] theorem setGpr_vec (r : Gpr) (w : UInt64) : (s.setGpr r w).vec = s.vec := rfl

@[simp] theorem setGpr_mem (r : Gpr) (w : UInt64) : (s.setGpr r w).mem = s.mem := rfl

@[simp] theorem setResult_gpr (r q : Gpr) (w : UInt64) :
    (s.setResult r w).gpr q = if q = r then w else s.gpr q := rfl

@[simp] theorem setResult_vec (r : Gpr) (w : UInt64) : (s.setResult r w).vec = s.vec := rfl

@[simp] theorem setResult_mem (r : Gpr) (w : UInt64) : (s.setResult r w).mem = s.mem := rfl

@[simp] theorem setVec_gpr (f : Form) (d : UInt8) (lanes : Fin 16 → UInt32) :
    (s.setVec f d lanes).gpr = s.gpr := rfl

@[simp] theorem setVec_mem (f : Form) (d : UInt8) (lanes : Fin 16 → UInt32) :
    (s.setVec f d lanes).mem = s.mem := rfl

@[simp] theorem storeVec_gpr (f : Form) (a : UInt64) (lanes : Fin 16 → UInt32) :
    (s.storeVec f a lanes).gpr = s.gpr := rfl

@[simp] theorem storeVec_mem (f : Form) (a : UInt64) (lanes : Fin 16 → UInt32) :
    (s.storeVec f a lanes).mem =
      s.mem.writeWords a f.lanes fun i => lanes (laneOf i) := rfl

@[simp] theorem storeVec_vec (f : Form) (a : UInt64) (lanes : Fin 16 → UInt32) :
    (s.storeVec f a lanes).vec = s.vec := rfl

end Machine

-- ---------------------------------------------------------------------------
-- Displacements
-- ---------------------------------------------------------------------------

theorem disp_ofNat {n : Nat} (h : n < 2 ^ 31) :
    (Int32.ofNat n).toInt64.toUInt64 = UInt64.ofNat n := by
  have hmsb : (BitVec.ofNat 32 n).msb = false := by
    rw [BitVec.msb_eq_false_iff_two_mul_lt, BitVec.toNat_ofNat]
    omega
  have hbits : (Int32.ofNat n).toInt64.toUInt64.toBitVec = (BitVec.ofNat 32 n).signExtend 64 := rfl
  apply UInt64.toBitVec_inj.mp
  rw [hbits, BitVec.signExtend_eq_setWidth_of_msb_false hmsb]
  apply BitVec.eq_of_toNat_eq
  rw [BitVec.toNat_setWidth, BitVec.toNat_ofNat, UInt64.toBitVec_ofNat', BitVec.toNat_ofNat]
  omega

theorem Machine.address_past (s : Machine) (base : Gpr) {n : Nat} (h : n < 2 ^ 31) :
    s.address (.past base (Int32.ofNat n)) = s.gpr base + UInt64.ofNat n := by
  simp [Machine.address, Address.past, disp_ofNat h]

end JitGemm.X86
