import JitGemm.Text.Blank

/-!
# Instruction set extensions

Extensions come in two families, and within a family on rungs: a ceiling keeps its own family up to
its own rung. Capability sets are bit sets over the seven extensions.
-/

namespace JitGemm

inductive Isa where
  | sse41
  | avx
  | avx2
  | fma
  | avx512Common
  | avx512Core
  | asimd
  deriving DecidableEq, Repr

inductive Family where
  | x86
  | arm
  deriving DecidableEq, Repr

namespace Isa

/-- Every extension, in the order in which sets list their members. -/
def all : List Isa := [sse41, avx, avx2, fma, avx512Common, avx512Core, asimd]

theorem mem_all (i : Isa) : i ∈ all := by cases i <;> decide

def token : Isa → String
  | sse41 => "sse41"
  | avx => "avx"
  | avx2 => "avx2"
  | fma => "fma"
  | avx512Common => "avx512_common"
  | avx512Core => "avx512_core"
  | asimd => "asimd"

/-- Name inside a kernel's description. -/
def tag : Isa → String
  | sse41 => "Sse41"
  | avx => "Avx"
  | avx2 => "Avx2"
  | fma => "Fma"
  | avx512Common => "Avx512Common"
  | avx512Core => "Avx512Core"
  | asimd => "Asimd"

/-- Reads a token. Blanks around it and the case of ASCII letters do not matter. -/
def ofToken? (s : String) : Option Isa :=
  let word := (Text.trimList s.toList).map Char.toLower
  all.find? fun i => i.token.toList == word

def family : Isa → Family
  | asimd => .arm
  | _ => .x86

/-- Rung within the family. The multiply-add extension stands on the rung of the 256-bit integer
instructions. -/
def rung : Isa → Nat
  | sse41 | asimd => 1
  | avx => 2
  | avx2 | fma => 3
  | avx512Common => 4
  | avx512Core => 5

def position : Isa → Fin 7
  | sse41 => 0
  | avx => 1
  | avx2 => 2
  | fma => 3
  | avx512Common => 4
  | avx512Core => 5
  | asimd => 6

theorem position_inj {i j : Isa} (h : i.position = j.position) : i = j := by
  revert h
  cases i <;> cases j <;> decide

/-- Whether a ceiling at `top` keeps `i`. -/
def within (i top : Isa) : Bool := i.family == top.family && i.rung ≤ top.rung

end Isa

structure IsaSet where
  members : BitVec 7
  deriving DecidableEq, Repr

namespace IsaSet

def empty : IsaSet := ⟨0⟩

def contains (s : IsaSet) (i : Isa) : Bool := s.members.getLsbD i.position

def insert (s : IsaSet) (i : Isa) : IsaSet := ⟨s.members ||| 1#7 <<< (i.position : Nat)⟩

def ofList (is : List Isa) : IsaSet := is.foldl insert empty

def full : IsaSet := ofList Isa.all

def inter (s t : IsaSet) : IsaSet := ⟨s.members &&& t.members⟩

/-- Everything that a ceiling at `top` allows. -/
def upTo (top : Isa) : IsaSet := ofList (Isa.all.filter (·.within top))

def withCeiling (s : IsaSet) (top : Isa) : IsaSet := s.inter (upTo top)

def toList (s : IsaSet) : List Isa := Isa.all.filter s.contains

/-- Quoted tokens in braces. -/
def text (s : IsaSet) : String :=
  "\x7b" ++ ", ".intercalate (s.toList.map fun i => "\"" ++ i.token ++ "\"") ++ "\x7d"

@[simp] theorem contains_empty (i : Isa) : empty.contains i = false := by cases i <;> rfl

@[simp] theorem contains_inter (s t : IsaSet) (i : Isa) :
    (s.inter t).contains i = (s.contains i && t.contains i) := by
  simp [contains, inter]

end IsaSet

end JitGemm
