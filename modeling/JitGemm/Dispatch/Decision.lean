import JitGemm.Gemm.Request
import JitGemm.Isa

/-!
# Routes

Which way a call takes, from the capability set and a few facts of the call.
-/

namespace JitGemm

inductive Decision where
  /-- The registered vendor library. -/
  | vendor
  /-- Tiles of a kernel generated for an extension. -/
  | generated (isa : Isa)
  /-- Tiles of a narrower integer kernel, with B shifted into the unsigned range. -/
  | simplified (isa : Isa)
  | reference
  deriving DecidableEq, Repr

namespace Decision

def text : Decision → String
  | vendor => "vendor"
  | generated isa => "jit:" ++ isa.token
  | simplified isa => "simple:" ++ isa.token
  | reference => "ref"

/-- Route of a single precision call. `jit` says whether kernels can be generated at all. -/
def sgemm (caps : IsaSet) (jit hasVendor forceNocopy : Bool) : Decision :=
  if hasVendor && !forceNocopy then vendor
  else if jit && caps.contains .avx512Core then generated .avx512Core
  else if jit && caps.contains .avx then generated .avx
  else reference

/-- Built-in route of a quantized call on an `m x n` result. -/
def igemm (caps : IsaSet) (jit : Bool) (m n : Nat) (z : ZeroPoints) : Decision :=
  if jit && caps.contains .avx512Core && 1 < Size.cap (m * n) then generated .avx512Core
  else if jit && z.isZero && caps.contains .avx2 then simplified .avx2
  else reference

/-- Route of a bfloat16 call, if it has one. -/
def bf16? (caps : IsaSet) (jit : Bool) : Option Decision :=
  if jit && caps.contains .avx512Core then some (generated .avx512Core) else none

end Decision

end JitGemm
