/-!
# Targets and vector widths
-/

namespace JitGemm

/-- An instruction set with a calling convention. -/
inductive Target where
  | sysV
  | win64
  | aarch64
  deriving DecidableEq, Repr

namespace Target

def isX86 : Target → Bool
  | aarch64 => false
  | _ => true

def text : Target → String
  | sysV => "x86_64-sysv"
  | win64 => "x86_64-win64"
  | aarch64 => "aarch64"

/-- Name inside a kernel's description. -/
def tag : Target → String
  | sysV => "X86_64SysV"
  | win64 => "X86_64Win64"
  | aarch64 => "Aarch64"

end Target

inductive VecLen where
  | v128
  | v256
  | v512
  deriving DecidableEq, Repr

namespace VecLen

def bytes : VecLen → Nat
  | v128 => 16
  | v256 => 32
  | v512 => 64

/-- Lanes of four bytes. -/
def lanes (len : VecLen) : Nat := len.bytes / 4

def text (len : VecLen) : String := (len.bytes * 8).repr ++ " bits"

end VecLen

end JitGemm
