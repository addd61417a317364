import JitGemm.Text.Quoted

/-!
# Refused calls

A call is refused because an argument is wrong, or because it is right but cannot be served. Wrong
arguments are always reported first.
-/

namespace JitGemm

inductive ElemType where
  | f32
  | bf16
  | s8
  | u8
  | s32
  deriving DecidableEq, Repr

namespace ElemType

def bytes : ElemType → Nat
  | f32 | s32 => 4
  | bf16 => 2
  | s8 | u8 => 1

def text : ElemType → String
  | f32 => "f32"
  | bf16 => "bf16"
  | s8 => "s8"
  | u8 => "u8"
  | s32 => "s32"

end ElemType

/-- How the values of an output offset spread over C. -/
inductive OffsetMode where
  /-- One value for all of C. -/
  | fixed
  /-- One value per column. -/
  | rowWise
  /-- One value per row. -/
  | columnWise
  deriving DecidableEq, Repr

def OffsetMode.text : OffsetMode → String
  | .fixed => "Fixed"
  | .rowWise => "RowWise"
  | .columnWise => "ColumnWise"

inductive ArgumentFault where
  | transposeFlag (byte : UInt8)
  | offsetFlag (byte : UInt8)
  | negative (argument : String) (value : Int)
  | leadingDimension (argument : String) (ld rowsStored : Nat)
  | shortOperand (operand : String) (length rows cols : Nat) (elem : ElemType) (required : Nat)
  | shortBias (length rows : Nat)
  | noOffset
  | shortOffset (mode : OffsetMode) (length needed : Nat)
  | null (argument : String)
  | extentOverflow (operand : String)
  /-- A cause in a vendor library's own words. -/
  | stated (text : String)
  deriving DecidableEq, Repr

inductive Unserviceable where
  /-- Bias and beta together, with the text of beta. -/
  | biasWithBeta (beta : String)
  | bf16WithoutAvx512
  | stated (text : String)
  deriving DecidableEq, Repr

inductive GemmError where
  | invalidArguments (cause : ArgumentFault)
  | unimplemented (cause : Unserviceable)
  deriving DecidableEq, Repr

/-- A flag byte as the character of that number. -/
def flagText (byte : UInt8) : String := Text.quotedChar (Char.ofNat byte.toNat)

def ArgumentFault.message : ArgumentFault → String
  | .transposeFlag b => "transpose flag " ++ flagText b ++ " is not one of N, n, T, t"
  | .offsetFlag b => "offset flag " ++ flagText b ++ " is not one of F, R, C"
  | .negative argument value => argument ++ " = " ++ toString value ++ " is negative"
  | .leadingDimension argument ld rows =>
    argument ++ " = " ++ ld.repr ++ " is smaller than max(1, " ++ rows.repr ++ ")"
  | .shortOperand operand length rows cols elem required =>
    operand ++ " holds " ++ length.repr ++ " elements but the " ++ rows.repr ++ " x " ++
      cols.repr ++ " " ++ elem.text ++ " operand needs " ++ required.repr
  | .shortBias length rows =>
    "bias holds " ++ length.repr ++ " elements but M = " ++ rows.repr
  | .noOffset => "quantized GEMM needs an output offset"
  | .shortOffset mode length needed =>
    mode.text ++ " offset holds " ++ length.repr ++ " values but needs " ++ needed.repr
  | .null argument => argument ++ " is null"
  | .extentOverflow operand => operand ++ " extent overflows"
  | .stated text => text

def Unserviceable.message : Unserviceable → String
  | .biasWithBeta beta => "bias requires beta == 0, got beta = " ++ beta
  | .bf16WithoutAvx512 => "bf16 gemm needs avx512_core"
  | .stated text => text

def GemmError.message : GemmError → String
  | .invalidArguments cause => "invalid arguments: " ++ cause.message
  | .unimplemented cause => "unimplemented: " ++ cause.message

/-- Outcome of a call as foreign callers see it. -/
inductive Status where
  | success
  | invalidArguments
  | unimplemented
  deriving DecidableEq, Repr

namespace Status

def text : Status → String
  | success => "Success"
  | invalidArguments => "InvalidArguments"
  | unimplemented => "Unimplemented"

def code : Status → Nat
  | success => 0
  | invalidArguments => 1
  | unimplemented => 2

def ofError : GemmError → Status
  | .invalidArguments _ => .invalidArguments
  | .unimplemented _ => .unimplemented

end Status

end JitGemm
