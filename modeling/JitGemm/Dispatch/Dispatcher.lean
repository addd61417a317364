import JitGemm.Config
import JitGemm.Dispatch.Decision
import JitGemm.Dispatch.Vendor
import JitGemm.Gemm.Blocked
import JitGemm.Tile.Code

/-!
# Dispatchers

A dispatcher validates a call, picks its route and runs it on a C. Kernels are generated on first
use and kept; one that cannot be generated leaves the call to the reference kernel. What the host
has is a parameter: how it is probed is left out, and so are the lines that are logged on the way.
-/

namespace JitGemm

/-- The machine that calls run on. -/
structure Host where
  isas : IsaSet
  target : Option Target
  processors : Nat

/-- How a call ended: by its route, with nothing to do, refused, or stopped by a fault. -/
inductive Outcome where
  | routed (d : Decision)
  | degenerate
  | refused (e : GemmError)
  | stopped (f : RunFault)
  deriving DecidableEq, Repr

/-- A finished tile kernel, and whether its multiply-add rounds once. -/
structure CachedKernel where
  kernel : TileKernel
  fused : Bool
  deriving DecidableEq, Repr

structure Dispatcher (α : Type) where
  host : Host
  caps : IsaSet
  /-- Where kernels are generated for, if anywhere. -/
  target : Option Target
  policy : KernelPolicy
  team : Work.Team
  vendor : Option (Vendor α) := none
  /-- Kernels in order of first use. -/
  kernels : List CachedKernel := []
  journal : Journal := {}
  vendorCalls : List VendorCall := []

namespace Dispatcher

variable {α : Type}

/-! ## Building -/

def build (host : Host) (config : Config) (dump : DumpPolicy) (team : Work.Team) :
    Dispatcher α where
  host := host
  caps := config.maxIsa.elim host.isas host.isas.withCeiling
  target := host.target.filter Target.isX86
  policy := { capacity := config.capacity, dump }
  team := team

def new (host : Host) (config : Config) (dump : DumpPolicy) :
    Except Work.TeamError (Dispatcher α) := do
  let team ← Work.Team.ofCount? (config.threads.effective host.processors)
  return build host config dump team

def withVendor (d : Dispatcher α) (vendor : Option (Vendor α)) : Dispatcher α := { d with vendor }

/-- Restricts routes to what both `caps` and the host have, and forgets all kernels. -/
def withCapabilities (d : Dispatcher α) (caps : IsaSet) : Dispatcher α :=
  { d with caps := caps.inter d.host.isas, kernels := [] }

def jit (d : Dispatcher α) : Bool := d.target.isSome

/-! ## Kernels -/

/-- The kernel of a key, generated unless it was before. -/
def kernel? (d : Dispatcher α) (key : TileKey) : Option CachedKernel × Dispatcher α :=
  match d.target with
  | none => (none, d)
  | some target =>
    match d.kernels.find? (·.kernel.key == key) with
    | some k => (some k, d)
    | none =>
      let (result, journal) := key.generate target d.caps d.policy d.journal
      match result with
      | .error _ => (none, { d with journal })
      | .ok kernel =>
        let table : OpTable := ⟨target, key.vecLen, d.caps⟩
        let k : CachedKernel := ⟨kernel, table.lowering? .fmadd231 != some .synthesized⟩
        (some k, { d with journal, kernels := d.kernels ++ [k] })

/-! ## Calls -/

/-- What comes of a call: its outcome, C, the request as its caller has it back, and the
dispatcher. -/
structure Answer (α A B γ : Type) where
  outcome : Outcome
  c : Array γ
  request : Request α A B
  dispatcher : Dispatcher α

section

variable {A B γ : Type}

/-- The end of a run that cannot be refused. -/
def finish (d : Dispatcher α) (q : Request α A B) (c : Array γ) (route : Decision)
    (run : Run γ Unit) : Answer α A B γ :=
  match run.run c with
  | .ok () c => ⟨.routed route, c, q, d⟩
  | .error fault c => ⟨.stopped fault, c, q, d⟩

def finishVendor (d : Dispatcher α) (q : Request α A B) (c : Array γ)
    (run : Run γ (Except GemmError Unit)) : Answer α A B γ :=
  match run.run c with
  | .ok (.ok ()) c => ⟨.routed .vendor, c, q, d⟩
  | .ok (.error e) c => ⟨.refused e, c, q, d⟩
  | .error fault c => ⟨.stopped fault, c, q, d⟩

/-- Validation and the degenerate case, which come before every route. -/
def guarded (d : Dispatcher α) (check : Except GemmError Unit) (q : Request α A B)
    (c : Array γ) (route : Unit → Answer α A B γ) : Answer α A B γ :=
  match check with
  | .error e => ⟨.refused e, c, q, d⟩
  | .ok () => if q.shape.degenerate then ⟨.degenerate, c, q, d⟩ else route ()

end

variable (ar : Arith α)

/-- A real product on tiles of a generated kernel, or by the reference kernel without one. -/
def runFloat {A B : Type} (d : Dispatcher α) (isa : Isa) (q : Request α A B) (a b : Operand α)
    (c : Array α) : Answer α A B α :=
  let key := TileKey.float isa (ar.isZero q.beta) q.bias.isSome
  match d.kernel? key with
  | (some k, d) =>
    d.finish q c (.generated isa) (Blocked.float ar d.team k.fused key.rows q a b)
  | (none, d) => d.finish q c .reference (Reference.float ar d.team q a b)

/-- The vendor library is lent the request without its bias, which is added afterwards if the
library succeeds. -/
def vendorSgemm (d : Dispatcher α) (v : Vendor α) (q : Request α α α) (c : Array α) :
    Answer α α α α :=
  let lent := { q with bias := none }
  let d := { d with vendorCalls := d.vendorCalls ++ [VendorCall.mk .sgemm lent.bias.isSome] }
  let run : Run α (Except GemmError Unit) := do
    let result ← v.sgemm lent
    match result, q.bias with
    | .ok (), some bias => Reference.addBias ar d.team q.shape bias
    | _, _ => pure ()
    return result
  d.finishVendor { lent with bias := q.bias } c run

def sgemm (d : Dispatcher α) (q : Request α α α) (c : Array α) : Answer α α α α :=
  d.guarded (q.outline ar .f32 .f32 .f32 c.size).check q c fun _ =>
    let a := q.floatA .f32 id
    let b := q.floatB .f32 id
    match Decision.sgemm d.caps d.jit d.vendor.isSome q.forceNocopy, d.vendor with
    | .vendor, some v => d.vendorSgemm ar v q c
    | .generated isa, _ => d.runFloat ar isa q a b c
    | _, _ => d.finish q c .reference (Reference.float ar d.team q a b)

/-- bfloat16 operands and a single precision result. -/
def bf16 (d : Dispatcher α) (q : Request α BFloat16 BFloat16) (c : Array α) :
    Answer α BFloat16 BFloat16 α :=
  d.guarded (q.outline ar .bf16 .bf16 .f32 c.size).check q c fun _ =>
    let a := q.floatA .bf16 ar.ofBf16
    let b := q.floatB .bf16 ar.ofBf16
    match Decision.bf16? d.caps d.jit with
    | some (.generated isa) => d.runFloat ar isa q a b c
    | _ => ⟨.refused (.unimplemented .bf16WithoutAvx512), c, q, d⟩

/-- A quantized entry: the elements of B, and the call of a vendor library. -/
structure Quantized (α B : Type) where
  entry : Entry
  kind : IntKind B
  vendorRun : Vendor α → Request α Int8 B → Option (Run Int32 (Except GemmError Unit))

def unsignedB : Quantized α UInt8 := ⟨.s8u8, .unsigned, Vendor.s8u8⟩

def signedB : Quantized α Int8 := ⟨.s8s8, .signed, Vendor.s8s8⟩

/-- The built-in routes of a quantized call. -/
def builtinIgemm {B : Type} (d : Dispatcher α) (kind : IntKind B) (q : Request α Int8 B)
    (c : Array Int32) : Answer α Int8 B Int32 :=
  let a := q.intA
  let b := q.intB kind
  let decision := Decision.igemm d.caps d.jit q.shape.m q.shape.n q.zeroPoints
  let tiled (isa : Isa) (shift : Int32) : Answer α Int8 B Int32 :=
    let key := TileKey.int isa
    match d.kernel? key with
    | (some _, d) => d.finish q c decision (Blocked.int ar d.team key.rows shift q a b)
    | (none, d) => d.finish q c .reference (Reference.int ar d.team q a b)
  match decision with
  | .generated isa => tiled isa 0
  | .simplified isa => tiled isa kind.shift
  | _ => d.finish q c .reference (Reference.int ar d.team q a b)

/-- A quantized call. A vendor library is asked first and may decline. -/
def igemm {B : Type} (d : Dispatcher α) (e : Quantized α B) (q : Request α Int8 B)
    (c : Array Int32) : Answer α Int8 B Int32 :=
  d.guarded (q.outline ar .s8 e.kind.elem .s32 c.size).checkQuantized q c fun _ =>
    match d.vendor with
    | none => d.builtinIgemm ar e.kind q c
    | some v =>
      let d := { d with vendorCalls := d.vendorCalls ++ [VendorCall.mk e.entry q.bias.isSome] }
      match e.vendorRun v q with
      | some run => d.finishVendor q c run
      | none => d.builtinIgemm ar e.kind q c

def s8u8 (d : Dispatcher α) :
    Request α Int8 UInt8 → Array Int32 → Answer α Int8 UInt8 Int32 :=
  d.igemm ar unsignedB

def s8s8 (d : Dispatcher α) :
    Request α Int8 Int8 → Array Int32 → Answer α Int8 Int8 Int32 :=
  d.igemm ar signedB

end Dispatcher

end JitGemm
