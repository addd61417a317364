import JitGemm.Code.Buffer

/-!
# AArch64 instructions
-/

namespace JitGemm.Arm64

inductive Cond where
  | eq
  | ne
  deriving DecidableEq, Repr

/-- Addressing mode of a load or store pair. -/
inductive PairMode where
  /-- The base moves first. -/
  | pre
  | offset
  /-- The base moves afterwards. -/
  | post
  deriving DecidableEq, Repr

/-- One instruction, or for `movImm` the shortest chain that writes a constant. Register number 31
is the stack pointer in immediate additions and as a base, and the zero register elsewhere. -/
inductive Instr where
  /-- A word as it stands. -/
  | word (w : UInt32)
  | stp (t t2 n : Gpr) (offset : Int32) (mode : PairMode)
  | ldp (t t2 n : Gpr) (offset : Int32) (mode : PairMode)
  | stpD (t t2 : Vreg) (n : Gpr) (offset : Int32)
  | ldpD (t t2 : Vreg) (n : Gpr) (offset : Int32)
  | addImm (d n : Gpr) (imm : UInt32)
  | subImm (d n : Gpr) (imm : UInt32)
  | subsImm (d n : Gpr) (imm : UInt32)
  | movSp (d n : Gpr)
  | add (d n m : Gpr)
  | sub (d n m : Gpr)
  | mul (d n m : Gpr)
  | mov (d m : Gpr)
  | neg (d m : Gpr)
  | lslImm (d n : Gpr) (shift : UInt8)
  | movz (d : Gpr) (imm : UInt16) (shift : UInt8)
  | movk (d : Gpr) (imm : UInt16) (shift : UInt8)
  | movImm (d : Gpr) (imm : UInt64)
  | ldr (t n : Gpr) (offset : Int32)
  | str (t n : Gpr) (offset : Int32)
  | ldrQ (t : Vreg) (n : Gpr) (offset : Int32)
  | strQ (t : Vreg) (n : Gpr) (offset : Int32)
  /-- A three-register vector instruction on top of `base`. -/
  | v3 (base : UInt32) (d n m : Vreg)
  /-- A two-register vector instruction on top of `base`. -/
  | v2 (base : UInt32) (d n : Vreg)
  | moviZero (d : Vreg)
  | ld1r4s (t : Vreg) (n : Gpr)
  | b (l : Code.Label)
  | bCond (cc : Cond) (l : Code.Label)
  | cbz (t : Gpr) (l : Code.Label)
  | cbnz (t : Gpr) (l : Code.Label)
  | ret
  deriving DecidableEq, Repr

end JitGemm.Arm64
