import JitGemm.Operand
import JitGemm.Size
import JitGemm.Target

/-!
# Frames

What each calling convention preserves across a call, and where a kernel's working stack lies.
-/

namespace JitGemm

/-- Bytes that an AArch64 frame saves: fp and lr, x19 to x28, d8 to d15. -/
def aarch64SaveArea : Nat := 160

namespace Target

/-- Preserved general registers, in save order. -/
def savedGprs : Target → List Gpr
  | sysV => [.rbx, .rbp, .r12, .r13, .r14, .r15]
  | win64 => [.rbx, .rbp, .rdi, .rsi, .r12, .r13, .r14, .r15]
  | aarch64 => [⟨19⟩, ⟨20⟩, ⟨21⟩, ⟨22⟩, ⟨23⟩, ⟨24⟩, ⟨25⟩, ⟨26⟩, ⟨27⟩, ⟨28⟩]

/-- Preserved vector registers, in save order. -/
def savedVregs : Target → List Vreg
  | sysV => []
  | win64 => [⟨6⟩, ⟨7⟩, ⟨8⟩, ⟨9⟩, ⟨10⟩, ⟨11⟩, ⟨12⟩, ⟨13⟩, ⟨14⟩, ⟨15⟩]
  | aarch64 => [⟨8⟩, ⟨9⟩, ⟨10⟩, ⟨11⟩, ⟨12⟩, ⟨13⟩, ⟨14⟩, ⟨15⟩]

/-- Bytes preserved of each saved vector register, from its low end. -/
def vregSaveBytes : Target → Nat
  | sysV => 0
  | win64 => 16
  | aarch64 => 8

/-- Registers of the first integer arguments. -/
def params : Target → List Gpr
  | sysV => [.rdi, .rsi, .rdx, .rcx, .r8, .r9]
  | win64 => [.rcx, .rdx, .r8, .r9]
  | aarch64 => [⟨0⟩, ⟨1⟩, ⟨2⟩, ⟨3⟩, ⟨4⟩, ⟨5⟩, ⟨6⟩, ⟨7⟩]

def vregArea (t : Target) : Nat := t.savedVregs.length * t.vregSaveBytes

end Target

/-! ## Working stack -/

/-- The next multiple of 16. -/
def align16 (n : Nat) : Nat := if n % 16 = 0 then n else n + (16 - n % 16)

/-- How much working stack is asked for. The next multiple of 16 has to be a word: otherwise
rounding up overflows, which ends the call that asks before anything is emitted. -/
structure StackSize where
  bytes : Nat
  word : align16 bytes < Size.modulus
  deriving DecidableEq, Repr

namespace StackSize

/-- No working stack. -/
def zero : StackSize := ⟨0, by decide⟩

/-- `none` where rounding up overflows. -/
def ofBytes? (n : Nat) : Option StackSize :=
  if h : align16 n < Size.modulus then some ⟨n, h⟩ else none

end StackSize

/-- One kernel frame: the convention it follows and the working stack below the saved registers. -/
structure Frame where
  target : Target
  reserve : Nat
  deriving DecidableEq, Repr

namespace Frame

/-- Bytes between the caller's stack pointer and the working stack on x86-64: the return address,
the vector save area and the pushes. -/
def usedX86 (t : Target) : Nat := 8 + t.vregArea + t.savedGprs.length * 8

/-- A frame with the working stack that is asked for, padded so that the stack pointer is a multiple
of 16 in the body. -/
def ofStack (t : Target) (stack : StackSize) : Frame :=
  if stack.bytes = 0 then ⟨t, 0⟩
  else if t.isX86 then ⟨t, align16 stack.bytes + usedX86 t % 16⟩
  else ⟨t, align16 stack.bytes⟩

end Frame

end JitGemm
