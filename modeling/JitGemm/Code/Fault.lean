import JitGemm.Operand
import JitGemm.VecOp

/-!
# What can go wrong while code is made

An `OperandFault` is the cause of one refused operand; a `CodeError` is why no kernel came out.
-/

namespace JitGemm

inductive OperandFault where
  | labelBoundTwice (label : Nat)
  | branchOutOfRange (label : Nat)
  | stackPointerIndex
  | scale (s : UInt8)
  /-- A base or index number that x86-64 lacks. -/
  | foreignRegister (a : Address)
  | legacyVreg
  | vexVreg
  | evexVreg
  | noGpr (n : UInt8)
  | noVreg (n : UInt8)
  | pairOffset (offset : Int32)
  | wideImmediate (imm : UInt32)
  | scaledOffset (offset : Int32) (scale : Int32)
  | indexedAddress
  | stackOffset (disp : Int32)
  | postambleWithoutPreamble
  | exitOutsideFrame
  | noArgumentRegister
  | wrongSource (op : VecOp) (source : VecSource)
  | unsynthesizable (op : VecOp) (source : VecSource)
  | noNativeForm (op : VecOp) (lowering : Lowering)
  | legacyMask
  /-- A cause in a caller's own words. -/
  | stated (text : String)
  deriving DecidableEq, Repr

namespace OperandFault

def message : OperandFault → String
  | labelBoundTwice n => "label " ++ n.repr ++ " bound twice"
  | branchOutOfRange n => "branch to label " ++ n.repr ++ " out of range"
  | stackPointerIndex => "rsp cannot be an index register"
  | scale s => "scale " ++ s.toNat.repr ++ " is not 1, 2, 4 or 8"
  | foreignRegister a => a.text ++ " uses a non-x86 register"
  | legacyVreg => "legacy SSE encodes xmm0-xmm15 only"
  | vexVreg => "VEX encodes registers 0-15 only"
  | evexVreg => "EVEX encodes registers 0-31 only"
  | noGpr n => "x" ++ n.toNat.repr ++ " does not exist"
  | noVreg n => "v" ++ n.toNat.repr ++ " does not exist"
  | pairOffset o => "pair offset " ++ toString o.toInt ++ " is not a multiple of 8 in [-512, 504]"
  | wideImmediate i => "immediate " ++ i.toNat.repr ++ " exceeds 12 bits"
  | scaledOffset o s =>
    "offset " ++ toString o.toInt ++ " not encodable with scale " ++ toString s.toInt
  | indexedAddress => "indexed addressing is x86-only"
  | stackOffset d => "sp offset " ++ toString d.toInt ++ " not encodable"
  | postambleWithoutPreamble => "postamble without preamble"
  | exitOutsideFrame => "exit_label outside with_frame"
  | noArgumentRegister => "frame has no argument register"
  | wrongSource op s => op.name ++ " does not take " ++ s.text
  | unsynthesizable op s => op.name ++ " cannot be synthesized from " ++ s.text
  | noNativeForm op low => op.name ++ " has no single native form under " ++ low.name
  | legacyMask => "legacy blendvps takes its mask in xmm0"
  | stated t => t

end OperandFault

inductive CodeError where
  | bufferExhausted (needed capacity : Nat)
  | noEncoding (op : VecOp) (len : VecLen) (target : Target)
  | unboundLabel (label : Nat)
  | invalidOperand (cause : OperandFault)
  | unsupportedTarget (target : Target)
  | emptyCode
  deriving DecidableEq, Repr

def CodeError.message : CodeError → String
  | .bufferExhausted needed capacity =>
    "code buffer exhausted: " ++ needed.repr ++ " bytes emitted, capacity is " ++ capacity.repr
  | .noEncoding op len target =>
    "no encoding for " ++ op.name ++ " on " ++ target.text ++ " at " ++ len.text
  | .unboundLabel n => "label " ++ n.repr ++ " referenced but never bound"
  | .invalidOperand cause => "invalid operand: " ++ cause.message
  | .unsupportedTarget t => "instruction not available on " ++ t.text
  | .emptyCode => "generator produced no code"

end JitGemm
