import JitGemm.Generator.Kernel
import JitGemm.Isa
import JitGemm.Text.Count

/-!
# Settings from the environment

Three variables configure a dispatcher. A value that does not read as asked counts as unset.
-/

namespace JitGemm

inductive ThreadCount where
  /-- One worker per processor. -/
  | auto
  | fixed (n : Nat)
  deriving DecidableEq, Repr

/-- Workers that a setting stands for on a machine of `processors` processors. -/
def ThreadCount.effective (processors : Nat) : ThreadCount → Nat
  | .auto => max processors 1
  | .fixed n => max n 1

structure Config where
  threads : ThreadCount := .auto
  capacity : Nat := defaultCapacity
  /-- Ceiling on the extensions in use. -/
  maxIsa : Option Isa := none
  deriving DecidableEq, Repr

namespace Config

def threadsVar : String := "IG_NUM_THREADS"
def capacityVar : String := "IG_JIT_CODE_CAPACITY"
def maxIsaVar : String := "IG_MAX_CPU_ISA"

def ofVars (lookup : String → Option String) : Config where
  threads := ((lookup threadsVar).bind Text.positiveCount?).elim .auto .fixed
  capacity := ((lookup capacityVar).bind Text.positiveCount?).getD defaultCapacity
  maxIsa := (lookup maxIsaVar).bind Isa.ofToken?

end Config

end JitGemm
