import JitGemm.Generator.Framing
import JitGemm.Generator.Kernel
import JitGemm.Generator.Vector
import JitGemm.Tile.Key

/-!
# The code of a tile kernel

A kernel takes one pointer to its arguments: the number of steps, the packed panels of A and B, the
tile of C with its column distance in bytes, and for f32 also alpha, beta and bias. Each step
multiplies two registers of A with four broadcast values of B into eight accumulators; afterwards
the columns of C are written one by one.
-/

namespace JitGemm.Tile

/-! ## Argument block -/

/-- Byte offsets in the argument block. -/
def stepsAt : Int32 := 0
def panelAAt : Int32 := 8
def panelBAt : Int32 := 16
def tileAt : Int32 := 24
def strideAt : Int32 := 32
def alphaAt : Int32 := 40
def betaAt : Int32 := 44
def biasAt : Int32 := 48

/-! ## Registers -/

/-- General registers of a kernel. None of them carries the argument or is the scratch register. -/
structure Regs where
  steps : Gpr
  a : Gpr
  b : Gpr
  c : Gpr
  stride : Gpr
  bias : Gpr
  column : Gpr
  deriving DecidableEq, Repr

def Regs.of (t : Target) : Regs :=
  if t.isX86 then
    { steps := .r8, a := .r9, b := .r10, c := .rbx, stride := .rbp, bias := .r12, column := .r13 }
  else
    { steps := ⟨9⟩, a := ⟨10⟩, b := ⟨11⟩, c := ⟨12⟩, stride := ⟨13⟩, bias := ⟨14⟩,
      column := ⟨15⟩ }

/-- Register `v` of a step of A, and later of the bias. -/
def aReg (v : Nat) : Vreg := ⟨UInt8.ofNat (8 + v)⟩
def bReg : Vreg := ⟨10⟩
def alphaReg : Vreg := ⟨11⟩
def betaReg : Vreg := ⟨12⟩
def tmpReg : Vreg := ⟨13⟩

/-- Accumulator of register `v` in column `j`. -/
def accReg (v j : Nat) : Vreg := ⟨UInt8.ofNat (v * tileCols + j)⟩

/-! ## Parts of the code -/

section

variable (t : OpTable) (k : TileKey) (r : Regs)

def scalars (ops : List ScalarOp) : List Emission := ops.flatMap t.target.scalar

def vectors (calls : List VecCall) : List Emission := calls.flatMap t.vector

def vecRange : List Nat := List.range tileVecs

def colRange : List Nat := List.range tileCols

/-- Register `v` behind `base`. -/
def vecAddress (base : Gpr) (v : Nat) : Address := .past base (Int32.ofNat (v * t.len.bytes))

/-- Loads the arguments and clears the accumulators. -/
def entry (args : Gpr) : List Emission :=
  scalars t ([
    .load r.steps (.past args stepsAt),
    .load r.a (.past args panelAAt),
    .load r.b (.past args panelBAt),
    .load r.c (.past args tileAt),
    .load r.stride (.past args strideAt)] ++
    if k.withBias then [.load r.bias (.past args biasAt)] else []) ++
  (if k.kind = .float then
    vectors t (.broadcast alphaReg (.past args alphaAt) ::
      if k.betaZero then [] else [.broadcast betaReg (.past args betaAt)])
  else []) ++
  vectors t (vecRange.flatMap fun v => colRange.map fun j => .zero (accReg v j))

/-- One column of one step. -/
def stepColumn (j : Nat) : List VecCall :=
  let source : Address := .past r.b (Int32.ofNat (j * 4))
  match k.kind with
  | .float =>
    .broadcast bReg source :: vecRange.map fun v => .fmadd231 (accReg v j) (aReg v) (.reg bReg)
  | .int =>
    .broadcastD bReg (.mem source) :: vecRange.flatMap fun v =>
      [.pmullD tmpReg (aReg v) (.reg bReg), .paddD (accReg v j) (accReg v j) (.reg tmpReg)]

/-- One step: A, then column by column, then on to the next values. -/
def step : List Emission :=
  vectors t (vecRange.map fun v =>
    match k.kind with
    | .float => .load (aReg v) (vecAddress t r.a v)
    | .int => .intLoad (aReg v) (vecAddress t r.a v)) ++
  vectors t (colRange.flatMap (stepColumn k r)) ++
  scalars t [
    .addOffset r.a (Int64.ofNat (t.len.bytes * tileVecs)),
    .addOffset r.b (Int64.ofNat (tileCols * 4))]

/-- What is done to register `v` of column `j` when it goes to C. -/
def writeRegister (j v : Nat) : List VecCall :=
  let target := vecAddress t r.column v
  let acc := accReg v j
  match k.kind with
  | .int => [.intStore target acc]
  | .float =>
    [.mul acc acc (.reg alphaReg)] ++
    (if k.withBias then [.add acc acc (.reg (aReg v))] else []) ++
    (if k.betaZero then [] else [.load tmpReg target, .fmadd231 acc betaReg (.reg tmpReg)]) ++
    [.store target acc]

/-- Writes the columns of C; the column pointer moves between them. -/
def writeBack : List Emission :=
  scalars t [.mov r.column r.c] ++
  (if k.kind = .float ∧ k.withBias then
    vectors t (vecRange.map fun v => .load (aReg v) (vecAddress t r.bias v))
  else []) ++
  colRange.flatMap fun j =>
    vectors t (vecRange.flatMap (writeRegister t k r j)) ++
    if j + 1 < tileCols then scalars t [.add r.column r.stride] else []

end

/-! ## The whole kernel -/

/-- The body: no step is done when the count is zero. -/
def body (k : TileKey) (frame : Frame) (g : Generator) : Generator :=
  let t := g.table
  let r := Regs.of t.target
  match frame.target.params.head? with
  | none => g.fail (.invalidOperand .noArgumentRegister)
  | some args =>
    let g := g.emit (entry t k r args)
    let (done, g) := g.newLabel
    let g := g.scalar (.jumpIfZero r.steps done)
    let (top, g) := g.newLabel
    let g := g.bind top
    let g := g.emit (step t k r)
    let g := g.scalar (.decJumpNonzero r.steps top)
    let g := g.bind done
    g.emit (writeBack t k r)

/-- Tag of this generator in the kernels it makes. -/
def origin : String := "tile"

def generator (k : TileKey) (target : Target) (caps : IsaSet) : Generator :=
  let g : Generator := { name := k.name, origin, table := ⟨target, k.vecLen, caps⟩ }
  g.withFrame .zero (body k)

end Tile

structure TileKernel where
  key : TileKey
  code : Kernel
  deriving DecidableEq, Repr

def TileKernel.text (k : TileKernel) : String :=
  "GemmKernel \x7b key: " ++ k.key.text ++ ", size: " ++ k.code.size.repr ++ " \x7d"

/-- Emits and finishes the kernel of a key. It fails where the capability set lacks an encoding that
the kernel needs. -/
def TileKey.generate (k : TileKey) (target : Target) (caps : IsaSet) (p : KernelPolicy)
    (j : Journal) : Except CodeError TileKernel × Journal :=
  let (result, j) := (Tile.generator k target caps).publish p j
  (result.map fun code => ⟨k, code⟩, j)

end JitGemm
