import JitGemm.X86.Instr

/-!
# x86-64 encoding

`Instr.chunk` gives the bytes of one instruction. Addresses are checked before a byte is emitted,
and so are the registers of the vector families. The integer forms split a register number into its
low three bits and bit 3, and do not look at the rest.
-/

namespace JitGemm.X86

open Code (Chunk le32 le64)

def Pp.code : Pp → UInt8
  | .none => 0
  | .p66 => 1
  | .pF3 => 2
  | .pF2 => 3

/-- The prefix as a byte of its own. -/
def Pp.bytes : Pp → List UInt8
  | .none => []
  | .p66 => [0x66]
  | .pF3 => [0xF3]
  | .pF2 => [0xF2]

def OpMap.code : OpMap → UInt8
  | .m0F => 1
  | .m0F38 => 2
  | .m0F3A => 3

/-- The escape bytes that select the map. -/
def OpMap.bytes : OpMap → List UInt8
  | .m0F => [0x0F]
  | .m0F38 => [0x0F, 0x38]
  | .m0F3A => [0x0F, 0x3A]

def Cond.code : Cond → UInt8
  | .below => 0x2
  | .aboveEq => 0x3
  | .zero => 0x4
  | .notZero => 0x5
  | .less => 0xC
  | .greaterEq => 0xD
  | .lessEq => 0xE
  | .greater => 0xF

/-- `n` set to one bit `b`. -/
def flag (b : Bool) (n : UInt8) : UInt8 := if b then 1 <<< n else 0

def low3 (n : UInt8) : UInt8 := n &&& 7

def bit3 (n : UInt8) : Bool := n &&& 8 != 0

def bit4 (n : UInt8) : Bool := n &&& 16 != 0

def fitsInt8 (n : Int32) : Bool := -128 ≤ n && n ≤ 127

def fitsInt32 (n : Int64) : Bool := -2147483648 ≤ n && n ≤ 2147483647

def int8Byte (n : Int32) : UInt8 := n.toUInt32.toUInt8

/-! ## Addresses -/

def scaleBits (s : UInt8) : UInt8 :=
  if s == 2 then 1 else if s == 4 then 2 else if s == 8 then 3 else 0

/-- The index is looked at first: as stack pointer, then its scale. Register numbers come last. -/
def checkAddress (a : Address) : Except OperandFault Unit :=
  match a.index with
  | some i =>
    if i.reg = .rsp then .error .stackPointerIndex
    else if !(i.scale == 1 || i.scale == 2 || i.scale == 4 || i.scale == 8) then
      .error (.scale i.scale)
    else if 15 < a.base.num || 15 < i.reg.num then .error (.foreignRegister a)
    else .ok ()
  | none => if 15 < a.base.num then .error (.foreignRegister a) else .ok ()

def checkRm : Rm → Except OperandFault Unit
  | .reg _ => .ok ()
  | .mem a => checkAddress a

/-! ## ModRM -/

def modrm (mode reg rm : UInt8) : UInt8 := mode <<< 6 ||| low3 reg <<< 3 ||| low3 rm

/-- Displacement mode: none, one byte, or four bytes. A base of number 5 or 13 has no form without
displacement, and `short` allows the one-byte form. -/
def dispMode (a : Address) (short : Bool) : UInt8 :=
  if a.disp == 0 && low3 a.base.num != 5 then 0
  else if short && fitsInt8 a.disp then 1
  else 2

/-- The SIB byte, present with an index and for bases of number 4 or 12. Index field 4 says that
there is no index. -/
def sib (a : Address) : List UInt8 :=
  match a.index with
  | some i => [scaleBits i.scale <<< 6 ||| low3 i.reg.num <<< 3 ||| low3 a.base.num]
  | none => if low3 a.base.num == 4 then [0x20 ||| low3 a.base.num] else []

def dispBytes (a : Address) (mode : UInt8) : List UInt8 :=
  if mode == 1 then [int8Byte a.disp] else if mode == 2 then le32 a.disp.toUInt32 else []

def memBytes (reg : UInt8) (a : Address) (short : Bool) : List UInt8 :=
  let mode := dispMode a short
  let rm := if a.index.isSome || low3 a.base.num == 4 then 4 else a.base.num
  [modrm mode reg rm] ++ sib a ++ dispBytes a mode

def rmBytes (reg : UInt8) (rm : Rm) (short : Bool) : List UInt8 :=
  match rm with
  | .reg n => [modrm 3 reg n]
  | .mem a => memBytes reg a short

/-- Extension bit of the index. -/
def extX : Rm → Bool
  | .reg _ => false
  | .mem a => a.index.elim false fun i => bit3 i.reg.num

/-- Extension bit of the register or base. -/
def extB : Rm → Bool
  | .reg n => bit3 n
  | .mem a => bit3 a.base.num

/-! ## Integer instructions -/

/-- A REX byte, left out when it says nothing. -/
def rex (w r x b : Bool) : List UInt8 :=
  let bits := flag w 3 ||| flag r 2 ||| flag x 1 ||| flag b 0
  if bits == 0 then [] else [0x40 ||| bits]

/-- `REX.W opcode /r`. -/
def op64 (opcode : List UInt8) (reg : UInt8) (rm : Rm) : Except OperandFault (List UInt8) := do
  checkRm rm
  return rex true (bit3 reg) (extX rm) (extB rm) ++ opcode ++ rmBytes reg rm true

/-- A register form, which is never refused. -/
def op64Reg (opcode : List UInt8) (reg rm : UInt8) : List UInt8 :=
  rex true (bit3 reg) false (bit3 rm) ++ opcode ++ rmBytes reg (.reg rm) true

/-- The push and pop forms, with the register in the opcode. -/
def opReg (opcode : UInt8) (r : Gpr) : List UInt8 :=
  rex false false false (bit3 r.num) ++ [opcode + low3 r.num]

/-- Arithmetic with an immediate of one or four bytes; `ext` picks the operation. -/
def aluImm (ext : UInt8) (r : Gpr) (imm : Int32) : List UInt8 :=
  if fitsInt8 imm then op64Reg [0x83] ext r.num ++ [int8Byte imm]
  else op64Reg [0x81] ext r.num ++ le32 imm.toUInt32

def movImmBytes (d : Gpr) (imm : Int64) : List UInt8 :=
  if fitsInt32 imm then op64Reg [0xC7] 0 d.num ++ le32 imm.toUInt64.toUInt32
  else rex true false false (bit3 d.num) ++ [0xB8 + low3 d.num] ++ le64 imm.toUInt64

/-! ## Vector instructions -/

def regAbove (limit : UInt8) : Rm → Bool
  | .reg n => limit < n
  | .mem _ => false

/-- `[prefix] [REX] 0F [38|3A] opcode /r [ib]`. -/
def sseBytes (op : Opcode) (reg : UInt8) (rm : Rm) (imm : Option UInt8) :
    Except OperandFault (List UInt8) := do
  if 15 < reg || regAbove 15 rm then throw .legacyVreg
  checkRm rm
  return op.pp.bytes ++ rex false (bit3 reg) (extX rm) (extB rm) ++ op.map.bytes ++ [op.byte] ++
    rmBytes reg rm true ++ imm.toList

/-- The VEX bytes before the opcode, two of them whenever two can say it. -/
def vexHead (op : Opcode) (w l256 : Bool) (reg vvvv : UInt8) (rm : Rm) : List UInt8 :=
  let r := bit3 reg
  let tail := (~~~vvvv &&& 0xF) <<< 3 ||| flag l256 2 ||| op.pp.code
  if op.map = .m0F ∧ !w ∧ !extX rm ∧ !extB rm then [0xC5, flag (!r) 7 ||| tail]
  else
    [0xC4, flag (!r) 7 ||| flag (!extX rm) 6 ||| flag (!extB rm) 5 ||| op.map.code,
      flag w 7 ||| tail]

def vexBytes (op : Opcode) (w l256 : Bool) (reg vvvv : UInt8) (rm : Rm) (imm : Option UInt8) :
    Except OperandFault (List UInt8) := do
  if 15 < reg || 15 < vvvv || regAbove 15 rm then throw .vexVreg
  checkRm rm
  return vexHead op w l256 reg vvvv rm ++ [op.byte] ++ rmBytes reg rm true ++ imm.toList

/-- In this family the index extension bit doubles as bit 4 of a register operand. -/
def evexX : Rm → Bool
  | .reg n => bit4 n
  | rm => extX rm

/-- The four EVEX bytes at 512 bits, without masking and broadcast. -/
def evexHead (op : Opcode) (w : Bool) (reg vvvv : UInt8) (rm : Rm) : List UInt8 :=
  [0x62,
    flag (!bit3 reg) 7 ||| flag (!evexX rm) 6 ||| flag (!extB rm) 5 ||| flag (!bit4 reg) 4 |||
      op.map.code,
    flag w 7 ||| (~~~vvvv &&& 0xF) <<< 3 ||| 0x04 ||| op.pp.code,
    0x40 ||| flag (!bit4 vvvv) 3]

/-- One-byte displacements would be scaled in this family, so memory operands use four bytes. -/
def evexBytes (op : Opcode) (w : Bool) (reg vvvv : UInt8) (rm : Rm) (imm : Option UInt8) :
    Except OperandFault (List UInt8) := do
  if 31 < reg || 31 < vvvv || regAbove 31 rm then throw .evexVreg
  checkRm rm
  return evexHead op w reg vvvv rm ++ [op.byte] ++ rmBytes reg rm false ++ imm.toList

/-! ## All instructions -/

/-- A branch with an open 32-bit field after its opcode. -/
def branchChunk (opcode : List UInt8) (l : Code.Label) : Chunk :=
  { bytes := opcode ++ le32 0, branch := some ⟨.rel32, opcode.length, l⟩ }

def Instr.chunk : Instr → Chunk
  | .push r => { bytes := opReg 0x50 r }
  | .pop r => { bytes := opReg 0x58 r }
  | .mov d s => { bytes := op64Reg [0x89] s.num d.num }
  | .movImm d imm => { bytes := movImmBytes d imm }
  | .load d m => .ofExcept (op64 [0x8B] d.num (.mem m))
  | .store m s => .ofExcept (op64 [0x89] s.num (.mem m))
  | .lea d m => .ofExcept (op64 [0x8D] d.num (.mem m))
  | .addImm r imm => { bytes := aluImm 0 r imm }
  | .subImm r imm => { bytes := aluImm 5 r imm }
  | .cmpImm r imm => { bytes := aluImm 7 r imm }
  | .add d s => { bytes := op64Reg [0x01] s.num d.num }
  | .sub d s => { bytes := op64Reg [0x29] s.num d.num }
  | .xor d s => { bytes := op64Reg [0x31] s.num d.num }
  | .cmp a b => { bytes := op64Reg [0x39] b.num a.num }
  | .test a b => { bytes := op64Reg [0x85] b.num a.num }
  | .imul d s => { bytes := op64Reg [0x0F, 0xAF] d.num s.num }
  | .shlImm r n => { bytes := op64Reg [0xC1] 4 r.num ++ [n &&& 63] }
  | .neg r => { bytes := op64Reg [0xF7] 3 r.num }
  | .inc r => { bytes := op64Reg [0xFF] 0 r.num }
  | .dec r => { bytes := op64Reg [0xFF] 1 r.num }
  | .jmp l => branchChunk [0xE9] l
  | .jcc cc l => branchChunk [0x0F, 0x80 ||| cc.code] l
  | .ret => { bytes := [0xC3] }
  | .vzeroupper => { bytes := [0xC5, 0xF8, 0x77] }
  | .sse op reg rm imm => .ofExcept (sseBytes op reg rm imm)
  | .vex op w l256 reg vvvv rm imm => .ofExcept (vexBytes op w l256 reg vvvv rm imm)
  | .evex op w reg vvvv rm imm => .ofExcept (evexBytes op w reg vvvv rm imm)

end JitGemm.X86
