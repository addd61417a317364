/-!
# Operands

Registers are bare numbers: which numbers exist, and what they name, is for each encoder to say.
-/

namespace JitGemm

structure Gpr where
  num : UInt8
  deriving DecidableEq, Repr

structure Vreg where
  num : UInt8
  deriving DecidableEq, Repr

namespace Gpr

def rax : Gpr := ⟨0⟩
def rcx : Gpr := ⟨1⟩
def rdx : Gpr := ⟨2⟩
def rbx : Gpr := ⟨3⟩
def rsp : Gpr := ⟨4⟩
def rbp : Gpr := ⟨5⟩
def rsi : Gpr := ⟨6⟩
def rdi : Gpr := ⟨7⟩
def r8 : Gpr := ⟨8⟩
def r9 : Gpr := ⟨9⟩
def r10 : Gpr := ⟨10⟩
def r11 : Gpr := ⟨11⟩
def r12 : Gpr := ⟨12⟩
def r13 : Gpr := ⟨13⟩
def r14 : Gpr := ⟨14⟩
def r15 : Gpr := ⟨15⟩

def x16 : Gpr := ⟨16⟩

def fp : Gpr := ⟨29⟩

def lr : Gpr := ⟨30⟩

/-- AArch64 number 31: the stack pointer or the zero register, as the instruction has it. -/
def sp : Gpr := ⟨31⟩

def text (r : Gpr) : String := "Gpr(" ++ r.num.toNat.repr ++ ")"

end Gpr

def Vreg.text (v : Vreg) : String := "Vreg(" ++ v.num.toNat.repr ++ ")"

/-- An index register and its scale. -/
structure Index where
  reg : Gpr
  scale : UInt8
  deriving DecidableEq, Repr

/-- The memory operand at base + index * scale + disp. -/
structure Address where
  base : Gpr
  index : Option Index := none
  disp : Int32 := 0
  deriving DecidableEq, Repr

namespace Address

/-- The address `disp` bytes past `base`. -/
def past (base : Gpr) (disp : Int32) : Address := { base, disp }

def indexText : Option Index → String
  | none => "None"
  | some i => "Some((" ++ i.reg.text ++ ", " ++ i.scale.toNat.repr ++ "))"

def text (a : Address) : String :=
  "Address \x7b base: " ++ a.base.text ++ ", index: " ++ indexText a.index ++ ", disp: " ++
    toString a.disp.toInt ++ " \x7d"

end Address

inductive VecSource where
  | reg (v : Vreg)
  | mem (a : Address)
  deriving DecidableEq, Repr

def VecSource.text : VecSource → String
  | .reg v => "Reg(" ++ v.text ++ ")"
  | .mem a => "Mem(" ++ a.text ++ ")"

end JitGemm
