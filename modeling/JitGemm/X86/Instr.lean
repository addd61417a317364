import JitGemm.Code.Buffer

/-!
# x86-64 instructions

The integer instructions are the 64-bit ones that kernels need; vector instructions come in the
legacy, VEX and EVEX families with prefix, map and opcode spelled out.
-/

namespace JitGemm.X86

/-- Mandatory prefix. -/
inductive Pp where
  | none
  | p66
  | pF3
  | pF2
  deriving DecidableEq, Repr

/-- Opcode map. -/
inductive OpMap where
  | m0F
  | m0F38
  | m0F3A
  deriving DecidableEq, Repr

structure Opcode where
  pp : Pp
  map : OpMap
  byte : UInt8
  deriving DecidableEq, Repr

inductive Cond where
  | below
  | aboveEq
  | zero
  | notZero
  | less
  | greaterEq
  | lessEq
  | greater
  deriving DecidableEq, Repr

/-- The operand that ModRM.rm names. -/
inductive Rm where
  | reg (n : UInt8)
  | mem (a : Address)
  deriving DecidableEq, Repr

def Rm.ofSource : VecSource → Rm
  | .reg v => .reg v.num
  | .mem a => .mem a

/-- One instruction. The first register or address of a two-operand integer instruction is its
destination. -/
inductive Instr where
  | push (r : Gpr)
  | pop (r : Gpr)
  | mov (d s : Gpr)
  | movImm (d : Gpr) (imm : Int64)
  | load (d : Gpr) (m : Address)
  | store (m : Address) (s : Gpr)
  | lea (d : Gpr) (m : Address)
  | addImm (r : Gpr) (imm : Int32)
  | subImm (r : Gpr) (imm : Int32)
  | cmpImm (r : Gpr) (imm : Int32)
  | add (d s : Gpr)
  | sub (d s : Gpr)
  | xor (d s : Gpr)
  | cmp (a b : Gpr)
  | test (a b : Gpr)
  | imul (d s : Gpr)
  | shlImm (r : Gpr) (n : UInt8)
  | neg (r : Gpr)
  | inc (r : Gpr)
  | dec (r : Gpr)
  | jmp (l : Code.Label)
  | jcc (cc : Cond) (l : Code.Label)
  | ret
  | vzeroupper
  | sse (op : Opcode) (reg : UInt8) (rm : Rm) (imm : Option UInt8)
  | vex (op : Opcode) (w l256 : Bool) (reg vvvv : UInt8) (rm : Rm) (imm : Option UInt8)
  | evex (op : Opcode) (w : Bool) (reg vvvv : UInt8) (rm : Rm) (imm : Option UInt8)
  deriving DecidableEq, Repr

end JitGemm.X86
