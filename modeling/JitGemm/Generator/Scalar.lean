import JitGemm.Generator.Emission

/-!
# General register operations

The operations on general registers that both architectures offer, and their instructions. Offsets
and constants that no immediate holds go through the scratch register.
-/

namespace JitGemm

inductive ScalarOp where
  | mov (d s : Gpr)
  | movImm (d : Gpr) (imm : Int64)
  | load (d : Gpr) (m : Address)
  | store (m : Address) (s : Gpr)
  | add (d s : Gpr)
  /-- Adds any 64-bit offset. -/
  | addOffset (r : Gpr) (offset : Int64)
  | subOffset (r : Gpr) (offset : Int64)
  /-- Multiplies by a constant, through shifts and additions. -/
  | mulConst (r : Gpr) (factor : Int64)
  | jmp (l : Code.Label)
  | jumpIfZero (r : Gpr) (l : Code.Label)
  /-- Decrements, and branches while the result is not zero. -/
  | decJumpNonzero (r : Gpr) (l : Code.Label)
  deriving DecidableEq, Repr

namespace Target

/-- One instruction, chosen by architecture. -/
def pick (t : Target) (x : X86.Instr) (a : Arm64.Instr) : List Emission :=
  if t.isX86 then [.x86 x] else [.arm a]

/-! ## Addresses -/

/-- Base and displacement of an AArch64 access of `size` bytes, after what it takes to form them.
A displacement that no immediate holds is added in the scratch register, except to the stack
pointer, which register additions do not name. -/
def armAddress (t : Target) (a : Address) (size : Int32) : List Emission × Gpr × Int32 :=
  if a.index.isSome then ([.refuse .indexedAddress], a.base, 0)
  else if Arm64.fitsScaled a.disp size then ([], a.base, a.disp)
  else if a.base = .sp then ([.refuse (.stackOffset a.disp)], a.base, 0)
  else
    let s := t.scratchGpr
    ([.arm (.movImm s a.disp.toInt64.toUInt64), .arm (.add s a.base s)], s, 0)

/-- An address `offset` bytes past `base`, and what it takes to form it. -/
def offsetAddress (t : Target) (base : Gpr) (offset : Int64) : Address × List Emission :=
  let s := t.scratchGpr
  if t.isX86 then
    if X86.fitsInt32 offset then (.past base offset.toInt32, [])
    else ({ base, index := some ⟨s, 1⟩ }, [.x86 (.movImm s offset)])
  else
    if X86.fitsInt32 offset && 0 ≤ offset then (.past base offset.toInt32, [])
    else ({ base := s }, [.arm (.movImm s offset.toUInt64), .arm (.add s base s)])

/-! ## Offsets and constants -/

def addOffset (t : Target) (r : Gpr) (offset : Int64) : List Emission :=
  let s := t.scratchGpr
  if t.isX86 then
    if X86.fitsInt32 offset then [.x86 (.addImm r offset.toInt32)]
    else [.x86 (.movImm s offset), .x86 (.add r s)]
  else
    if 0 ≤ offset && offset ≤ 0xFFF then [.arm (.addImm r r offset.toUInt64.toUInt32)]
    else if -0xFFF ≤ offset && offset < 0 then [.arm (.subImm r r (-offset).toUInt64.toUInt32)]
    else [.arm (.movImm s offset.toUInt64), .arm (.add r r s)]

/-- The least offset has no negation, so it is subtracted as it is. -/
def subOffset (t : Target) (r : Gpr) (offset : Int64) : List Emission :=
  if offset = Int64.minValue then
    let s := t.scratchGpr
    if t.isX86 then [.x86 (.movImm s offset), .x86 (.sub r s)]
    else [.arm (.movImm s offset.toUInt64), .arm (.sub r r s)]
  else t.addOffset r (-offset)

def shiftLeft (t : Target) (r : Gpr) (n : Nat) : List Emission :=
  if n = 0 then [] else
    t.pick (.shlImm r (UInt8.ofNat n)) (.lslImm r r (UInt8.ofNat n))

def addGpr (t : Target) (d s : Gpr) : List Emission := t.pick (.add d s) (.add d d s)

/-- The bits of `m` below position `bit`, from high to low: every set bit shifts by what is pending
and adds the initial value, kept in `s`. -/
def mulBits (t : Target) (r s : Gpr) (m : Nat) : Nat → Nat → List Emission
  | 0, pending => t.shiftLeft r pending
  | bit + 1, pending =>
    if m.testBit bit then
      t.shiftLeft r (pending + 1) ++ t.addGpr r s ++ mulBits t r s m bit 0
    else mulBits t r s m bit (pending + 1)

def mulConst (t : Target) (r : Gpr) (factor : Int64) : List Emission :=
  let m := factor.toInt.natAbs
  if m = 0 then t.pick (.xor r r) (.mov r ⟨31⟩) else
    let s := t.scratchGpr
    let product :=
      if m = 1 <<< m.log2 then t.shiftLeft r m.log2
      else t.pick (.mov s r) (.mov s r) ++ t.mulBits r s m m.log2 0
    product ++ if factor < 0 then t.pick (.neg r) (.neg r r) else []

/-! ## All operations -/

def loadGpr (t : Target) (d : Gpr) (m : Address) : List Emission :=
  if t.isX86 then [.x86 (.load d m)] else
    let (before, base, disp) := t.armAddress m 8
    before ++ [.arm (.ldr d base disp)]

def storeGpr (t : Target) (m : Address) (s : Gpr) : List Emission :=
  if t.isX86 then [.x86 (.store m s)] else
    let (before, base, disp) := t.armAddress m 8
    before ++ [.arm (.str s base disp)]

def scalar (t : Target) : ScalarOp → List Emission
  | .mov d s => t.pick (.mov d s) (.mov d s)
  | .movImm d imm => t.pick (.movImm d imm) (.movImm d imm.toUInt64)
  | .load d m => t.loadGpr d m
  | .store m s => t.storeGpr m s
  | .add d s => t.addGpr d s
  | .addOffset r offset => t.addOffset r offset
  | .subOffset r offset => t.subOffset r offset
  | .mulConst r factor => t.mulConst r factor
  | .jmp l => t.pick (.jmp l) (.b l)
  | .jumpIfZero r l =>
    if t.isX86 then [.x86 (.test r r), .x86 (.jcc .zero l)] else [.arm (.cbz r l)]
  | .decJumpNonzero r l =>
    if t.isX86 then [.x86 (.dec r), .x86 (.jcc .notZero l)]
    else [.arm (.subsImm r r 1), .arm (.bCond .ne l)]

end Target

def Generator.scalar (g : Generator) (op : ScalarOp) : Generator :=
  g.emit (g.table.target.scalar op)

/-- Emits what forms an address `offset` bytes past `base`. -/
def Generator.offsetAddress (g : Generator) (base : Gpr) (offset : Int64) : Address × Generator :=
  let (address, es) := g.table.target.offsetAddress base offset
  (address, g.emit es)

end JitGemm
