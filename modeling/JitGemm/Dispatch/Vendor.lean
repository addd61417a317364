import JitGemm.Gemm.Reference

/-!
# Vendor libraries

A vendor library works on C like any route, may fail, and may decline integer calls. It never sees a
bias. Every call that reaches it is logged, whether or not it is declined.
-/

namespace JitGemm

inductive Entry where
  | sgemm
  | bf16
  | s8u8
  | s8s8
  deriving DecidableEq, Repr

def Entry.text : Entry → String
  | .sgemm => "sgemm"
  | .bf16 => "bf16"
  | .s8u8 => "s8u8"
  | .s8s8 => "s8s8"

/-- The calls of a library. A run may end in a refusal. -/
structure Vendor (α : Type) where
  name : String
  sgemm : Request α α α → Run α (Except GemmError Unit)
  s8u8 : Request α Int8 UInt8 → Option (Run Int32 (Except GemmError Unit)) := fun _ => none
  s8s8 : Request α Int8 Int8 → Option (Run Int32 (Except GemmError Unit)) := fun _ => none

/-- A library that computes by the reference kernels, on one worker. -/
def Vendor.ofReference {α : Type} (ar : Arith α) (name : String) (integer : Bool) : Vendor α where
  name := name
  sgemm := fun q => do
    Reference.sgemm ar .serial q
    return .ok ()
  s8u8 := fun q =>
    if integer then some do
      Reference.igemm ar .unsigned .serial q
      return .ok ()
    else none
  s8s8 := fun q =>
    if integer then some do
      Reference.igemm ar .signed .serial q
      return .ok ()
    else none

/-- One call that reached the vendor library. -/
structure VendorCall where
  entry : Entry
  withBias : Bool
  deriving DecidableEq, Repr

end JitGemm
