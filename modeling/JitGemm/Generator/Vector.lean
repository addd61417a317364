import JitGemm.Generator.Scalar

/-!
# Vector register operations

The lane operations of a generator and their instructions under every lowering. An operation that
the table does not hold emits nothing and leaves an error.
-/

namespace JitGemm

inductive RoundMode where
  | nearest
  | floor
  | ceil
  | trunc
  deriving DecidableEq, Repr

def RoundMode.code : RoundMode → UInt8
  | nearest => 0
  | floor => 1
  | ceil => 2
  | trunc => 3

/-- Lane operations; `d` is the destination. -/
inductive VecCall where
  | mov (d s : Vreg)
  | zero (d : Vreg)
  | load (d : Vreg) (m : Address)
  | intLoad (d : Vreg) (m : Address)
  | store (m : Address) (s : Vreg)
  | intStore (m : Address) (s : Vreg)
  | broadcast (d : Vreg) (m : Address)
  | broadcastReg (d s : Vreg)
  | broadcastD (d : Vreg) (s : VecSource)
  | add (d a : Vreg) (b : VecSource)
  | sub (d a : Vreg) (b : VecSource)
  | mul (d a : Vreg) (b : VecSource)
  /-- `d * a + b`. -/
  | fmadd213 (d a : Vreg) (b : VecSource)
  /-- `a * b + d`. -/
  | fmadd231 (d a : Vreg) (b : VecSource)
  | cmpGt (d a : Vreg) (b : VecSource)
  | cmpGe (d a : Vreg) (b : VecSource)
  /-- Takes `s` where the mask is set, and keeps `d` elsewhere. -/
  | blend (d : Vreg) (s : VecSource) (mask : Vreg)
  | packSsdw (d a : Vreg) (b : VecSource)
  | packUswb (d a : Vreg) (b : VecSource)
  | round (d : Vreg) (s : VecSource) (mode : RoundMode)
  | rcp (d : Vreg) (s : VecSource)
  | rsqrt (d : Vreg) (s : VecSource)
  | paddD (d a : Vreg) (b : VecSource)
  | pmullD (d a : Vreg) (b : VecSource)
  deriving DecidableEq, Repr

/-- The table entry that a call goes by. A register move has none: it never lacks an encoding. -/
def VecCall.op? : VecCall → Option VecOp
  | mov .. => none
  | zero .. => some .zero
  | load .. => some .load
  | intLoad .. => some .intLoad
  | store .. => some .store
  | intStore .. => some .intStore
  | broadcast .. => some .broadcastFromMem
  | broadcastReg .. => some .broadcastFromReg
  | broadcastD .. => some .broadcastD
  | add .. => some .add
  | sub .. => some .sub
  | mul .. => some .mul
  | fmadd213 .. => some .fmadd213
  | fmadd231 .. => some .fmadd231
  | cmpGt .. => some .cmpGt
  | cmpGe .. => some .cmpGe
  | blend .. => some .blend
  | packSsdw .. => some .packSsdw
  | packUswb .. => some .packUswb
  | round .. => some .round
  | rcp .. => some .rcp
  | rsqrt .. => some .rsqrt
  | paddD .. => some .paddD
  | pmullD .. => some .pmullD

open X86 (Opcode)

/-! ## Opcodes -/

/-- The single instruction of an operation under an x86-64 lowering. -/
def VecOp.opcode (op : VecOp) (low : Lowering) : Opcode :=
  let evex := low = .evex
  match op with
  | load => ⟨.none, .m0F, 0x10⟩
  | store => ⟨.none, .m0F, 0x11⟩
  | zero => if evex then ⟨.p66, .m0F, 0xEF⟩ else ⟨.none, .m0F, 0x57⟩
  | add => ⟨.none, .m0F, 0x58⟩
  | mul => ⟨.none, .m0F, 0x59⟩
  | sub => ⟨.none, .m0F, 0x5C⟩
  | broadcastFromMem | broadcastFromReg => ⟨.p66, .m0F38, 0x18⟩
  | broadcastD => ⟨.p66, .m0F38, 0x58⟩
  | fmadd213 => ⟨.p66, .m0F38, 0xA8⟩
  | fmadd231 => ⟨.p66, .m0F38, 0xB8⟩
  | cmpGt | cmpGe => ⟨.none, .m0F, 0xC2⟩
  | blend => if low = .legacy then ⟨.p66, .m0F38, 0x14⟩ else ⟨.p66, .m0F3A, 0x4A⟩
  | packSsdw => ⟨.p66, .m0F, 0x6B⟩
  | packUswb => ⟨.p66, .m0F, 0x67⟩
  | round => ⟨.p66, .m0F3A, 0x08⟩
  | rcp => if evex then ⟨.p66, .m0F38, 0x4C⟩ else ⟨.none, .m0F, 0x53⟩
  | rsqrt => if evex then ⟨.p66, .m0F38, 0x4E⟩ else ⟨.none, .m0F, 0x52⟩
  | paddD => ⟨.p66, .m0F, 0xFE⟩
  | pmullD => ⟨.p66, .m0F38, 0x40⟩
  | intLoad => ⟨.pF3, .m0F, 0x6F⟩
  | intStore => ⟨.pF3, .m0F, 0x7F⟩

/-- The four-lane Advanced SIMD form of a three-register operation. -/
def VecOp.asimdBase? : VecOp → Option UInt32
  | add => some 0x4E20D400
  | sub => some 0x4EA0D400
  | mul => some 0x6E20DC00
  | fmadd231 => some 0x4E20CC00
  | paddD => some 0x4EA08400
  | _ => none

/-- Operations whose operands may be swapped when the legacy form has too few registers. -/
def VecOp.commutes : VecOp → Bool
  | add | mul | paddD | pmullD => true
  | _ => false

def movaps : Opcode := ⟨.none, .m0F, 0x28⟩
def movss : Opcode := ⟨.pF3, .m0F, 0x10⟩
def movd : Opcode := ⟨.p66, .m0F, 0x6E⟩
def shufps : Opcode := ⟨.none, .m0F, 0xC6⟩
def pshufd : Opcode := ⟨.p66, .m0F, 0x70⟩
def insertf128 : Opcode := ⟨.p66, .m0F3A, 0x18⟩

/-- Vector register copy of AArch64, an or of a register with itself. -/
def orrBase : UInt32 := 0x4EA01C00

/-- First lane to all lanes on AArch64. -/
def dupBase : UInt32 := 0x4E040400

namespace OpTable

variable (t : OpTable)

def noEncoding (op : VecOp) : Emission := .fail (.noEncoding op t.len t.target)

/-- One instruction in the form that `low` names. -/
def native (op : VecOp) (low : Lowering) (reg vvvv : Vreg) (rm : VecSource) (imm : Option UInt8) :
    List Emission :=
  let opcode := op.opcode low
  match low with
  | .legacy => [.x86 (.sse opcode reg.num (.ofSource rm) imm)]
  | .vex => [.x86 (.vex opcode false (t.len = .v256) reg.num vvvv.num (.ofSource rm) imm)]
  | .evex => [.x86 (.evex opcode false reg.num vvvv.num (.ofSource rm) imm)]
  | .asimd | .synthesized => [.refuse (.noNativeForm op low)]

/-- A copy between registers, of nothing when they are the same. -/
def move (d s : Vreg) : List Emission :=
  if d = s then []
  else if t.target.isX86 then
    match t.baseLowering with
    | .legacy => [.x86 (.sse movaps d.num (.reg s.num) none)]
    | .vex => [.x86 (.vex movaps false (t.len = .v256) d.num 0 (.reg s.num) none)]
    | _ => [.x86 (.evex movaps false d.num 0 (.reg s.num) none)]
  else [.arm (.v3 orrBase d s s)]

/-! ## Loads and stores of AArch64 -/

def armLoad (d : Vreg) (m : Address) : List Emission :=
  let (before, base, disp) := t.target.armAddress m 16
  before ++ [.arm (.ldrQ d base disp)]

def armStore (m : Address) (s : Vreg) : List Emission :=
  let (before, base, disp) := t.target.armAddress m 16
  before ++ [.arm (.strQ s base disp)]

/-- Forms an address in `d`. -/
def armFormAddress (d : Gpr) (m : Address) : List Emission :=
  if m.index.isSome then [.refuse .indexedAddress]
  else if 0 ≤ m.disp && m.disp ≤ 0xFFF then [.arm (.addImm d m.base m.disp.toUInt32)]
  else [.arm (.movImm d m.disp.toInt64.toUInt64), .arm (.add d m.base d)]

def armBroadcast (d : Vreg) (m : Address) : List Emission :=
  if m.disp == 0 && m.index.isNone then [.arm (.ld1r4s d m.base)] else
    let s := t.target.scratchGpr
    armFormAddress s m ++ [.arm (.ld1r4s d s)]

/-! ## Two sources -/

/-- The legacy form overwrites its first source. When the second source is the destination the
operands are swapped if that is allowed, and else it is saved in the scratch register. -/
def legacyBinary (op : VecOp) (d a : Vreg) (b : VecSource) (imm : Option UInt8) : List Emission :=
  if d ≠ a ∧ b = .reg d then
    if op.commutes then t.native op .legacy d ⟨0⟩ (.reg a) imm
    else
      t.move t.scratchVreg d ++ t.move d a ++ t.native op .legacy d ⟨0⟩ (.reg t.scratchVreg) imm
  else t.move d a ++ t.native op .legacy d ⟨0⟩ b imm

def armBinary (base : UInt32) (d a : Vreg) : VecSource → List Emission
  | .reg b => [.arm (.v3 base d a b)]
  | .mem m => t.armLoad t.scratchVreg m ++ [.arm (.v3 base d a t.scratchVreg)]

def binary (op : VecOp) (d a : Vreg) (b : VecSource) (imm : Option UInt8) : List Emission :=
  match t.lowering? op with
  | some .vex => t.native op .vex d a b imm
  | some .evex => t.native op .evex d a b imm
  | some .legacy => t.legacyBinary op d a b imm
  | some .asimd =>
    match op.asimdBase? with
    | some base => t.armBinary base d a b
    | none => [t.noEncoding op]
  | some .synthesized | none => [t.noEncoding op]

/-- Comparison predicates: the legacy form has only the negated ones, which hold for NaN too. -/
def comparePredicate (legacy native : UInt8) : UInt8 :=
  if t.baseLowering = .legacy then legacy else native

/-! ## One source -/

/-- Broadcasts from moves and shuffles. -/
def synthBroadcast (op : VecOp) (d : Vreg) (s : VecSource) : List Emission :=
  match op, s with
  | .broadcastFromMem, .mem m =>
    [.x86 (.sse movss d.num (.mem m) none), .x86 (.sse shufps d.num (.reg d.num) (some 0))]
  | .broadcastFromReg, .reg s =>
    if t.vex then
      .x86 (.vex shufps false false d.num s.num (.reg s.num) (some 0)) ::
        if t.len = .v256 then
          [.x86 (.vex insertf128 false true d.num d.num (.reg d.num) (some 1))]
        else []
    else t.move d s ++ [.x86 (.sse shufps d.num (.reg d.num) (some 0))]
  | .broadcastD, .mem m =>
    if t.vex then
      [.x86 (.vex movd false false d.num 0 (.mem m) none),
        .x86 (.vex pshufd false false d.num 0 (.reg d.num) (some 0))]
    else
      [.x86 (.sse movd d.num (.mem m) none), .x86 (.sse pshufd d.num (.reg d.num) (some 0))]
  | .broadcastD, .reg s =>
    if t.vex then [.x86 (.vex pshufd false false d.num 0 (.reg s.num) (some 0))]
    else [.x86 (.sse pshufd d.num (.reg s.num) (some 0))]
  | _, _ => [.refuse (.unsynthesizable op s)]

def armUnary (op : VecOp) (d : Vreg) (s : VecSource) : List Emission :=
  match op, s with
  | .load, .mem m | .intLoad, .mem m => t.armLoad d m
  | .load, .reg v | .intLoad, .reg v => t.move d v
  | .broadcastFromMem, .mem m => t.armBroadcast d m
  | .broadcastFromReg, .reg v => [.arm (.v2 dupBase d v)]
  | _, _ => [.refuse (.wrongSource op s)]

def unary (op : VecOp) (d : Vreg) (s : VecSource) (imm : Option UInt8) : List Emission :=
  match t.lowering? op with
  | some .asimd => t.armUnary op d s
  | some .synthesized => t.synthBroadcast op d s
  | some low => t.native op low d ⟨0⟩ s imm
  | none => [t.noEncoding op]

def storeTo (op : VecOp) (m : Address) (s : Vreg) : List Emission :=
  match t.lowering? op with
  | some .asimd => t.armStore m s
  | some low => t.native op low s ⟨0⟩ (.mem m) none
  | none => [t.noEncoding op]

def clear (d : Vreg) : List Emission :=
  match t.lowering? .zero with
  | some .asimd => [.arm (.moviZero d)]
  | some low => t.native .zero low d d (.reg d) none
  | none => [t.noEncoding .zero]

/-! ## Multiply and add -/

/-- Plain arithmetic under a given lowering, whatever the table says. -/
def arith (op : VecOp) (d a : Vreg) (b : VecSource) : List Emission :=
  match t.baseLowering with
  | .legacy => t.legacyBinary op d a b none
  | low => t.native op low d a b none

/-- A product, then a sum. The product goes to the scratch register unless the destination may
hold it. -/
def mulThenAdd (op : VecOp) (d a : Vreg) (b : VecSource) : List Emission :=
  let s := t.scratchVreg
  match op with
  | .fmadd213 =>
    if b = .reg d then t.arith .mul s d (.reg a) ++ t.arith .add d s b
    else t.arith .mul d d (.reg a) ++ t.arith .add d d b
  | _ => t.arith .mul s a b ++ t.arith .add d d (.reg s)

def fma (op : VecOp) (d a : Vreg) (b : VecSource) : List Emission :=
  match t.lowering? op with
  | some .vex => t.native op .vex d a b none
  | some .evex => t.native op .evex d a b none
  | some .asimd => t.binary op d a b none
  | some .synthesized => t.mulThenAdd op d a b
  | some .legacy | none => [t.noEncoding op]

/-! ## Blend -/

/-- The mask is register 0 in the legacy form, and the high half of an immediate byte else. -/
def blend (d : Vreg) (s : VecSource) (mask : Vreg) : List Emission :=
  match t.lowering? .blend with
  | some .legacy =>
    if mask = ⟨0⟩ then t.native .blend .legacy d ⟨0⟩ s none else [.refuse .legacyMask]
  | some low => t.native .blend low d d s (some (mask.num <<< 4))
  | none => [t.noEncoding .blend]

/-! ## All calls -/

def vector : VecCall → List Emission
  | .mov d s => t.move d s
  | .zero d => t.clear d
  | .load d m => t.unary .load d (.mem m) none
  | .intLoad d m => t.unary .intLoad d (.mem m) none
  | .store m s => t.storeTo .store m s
  | .intStore m s => t.storeTo .intStore m s
  | .broadcast d m => t.unary .broadcastFromMem d (.mem m) none
  | .broadcastReg d s => t.unary .broadcastFromReg d (.reg s) none
  | .broadcastD d s => t.unary .broadcastD d s none
  | .add d a b => t.binary .add d a b none
  | .sub d a b => t.binary .sub d a b none
  | .mul d a b => t.binary .mul d a b none
  | .fmadd213 d a b => t.fma .fmadd213 d a b
  | .fmadd231 d a b => t.fma .fmadd231 d a b
  | .cmpGt d a b => t.binary .cmpGt d a b (some (t.comparePredicate 6 0x0E))
  | .cmpGe d a b => t.binary .cmpGe d a b (some (t.comparePredicate 5 0x0D))
  | .blend d s mask => t.blend d s mask
  | .packSsdw d a b => t.binary .packSsdw d a b none
  | .packUswb d a b => t.binary .packUswb d a b none
  | .round d s mode => t.unary .round d s (some (mode.code ||| 0x8))
  | .rcp d s => t.unary .rcp d s none
  | .rsqrt d s => t.unary .rsqrt d s none
  | .paddD d a b => t.binary .paddD d a b none
  | .pmullD d a b => t.binary .pmullD d a b none

end OpTable

def Generator.vector (g : Generator) (c : VecCall) : Generator := g.emit (g.table.vector c)

end JitGemm
