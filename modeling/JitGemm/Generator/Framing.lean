import JitGemm.Generator.Emission

/-!
# Opening and closing frames

The code that saves what a convention preserves and reserves working stack, the code that undoes
it, and the frames that a generator opens around a body.
-/

namespace JitGemm

/-- Consecutive pairs; a last element without partner is left out. -/
def pairs {α : Type} : List α → List (α × α)
  | a :: b :: rest => (a, b) :: pairs rest
  | _ => []

namespace Frame

open X86 (Opcode)

def movdquLoad : Opcode := ⟨.pF3, .m0F, 0x6F⟩
def movdquStore : Opcode := ⟨.pF3, .m0F, 0x7F⟩

/-! ## x86-64 -/

/-- Vector register `v` and slot `i` of the save area, from the stack pointer up. -/
def slotAccess (op : Opcode) (vex : Bool) (v : Vreg) (i : Nat) : Emission :=
  let slot : X86.Rm := .mem (.past .rsp (Int32.ofNat (16 * i)))
  if vex then .x86 (.vex op false false v.num 0 slot none)
  else .x86 (.sse op v.num slot none)

def slotAccesses (op : Opcode) (vex : Bool) (t : Target) : List Emission :=
  t.savedVregs.zipIdx.map fun (v, i) => slotAccess op vex v i

def preambleX86 (f : Frame) (vex : Bool) : List Emission :=
  let area := f.target.vregArea
  (if area = 0 then [] else
    .x86 (.subImm .rsp (Int32.ofNat area)) :: slotAccesses movdquStore vex f.target) ++
  f.target.savedGprs.map (fun r => .x86 (.push r)) ++
  if f.reserve = 0 then [] else [.x86 (.subImm .rsp (Int32.ofNat f.reserve))]

def postambleX86 (f : Frame) (vex : Bool) : List Emission :=
  let area := f.target.vregArea
  (if f.reserve = 0 then [] else [.x86 (.addImm .rsp (Int32.ofNat f.reserve))]) ++
  f.target.savedGprs.reverse.map (fun r => .x86 (.pop r)) ++
  (if area = 0 then [] else
    slotAccesses movdquLoad vex f.target ++ [.x86 (.addImm .rsp (Int32.ofNat area))]) ++
  (if vex then [.x86 .vzeroupper] else []) ++ [.x86 .ret]

/-! ## AArch64 -/

def saveArea : Int32 := Int32.ofNat aarch64SaveArea

/-- Byte offset of pair `i` of the general registers in the save area. -/
def gprSlot (i : Nat) : Int32 := Int32.ofNat (16 + 16 * i)

/-- Byte offset of pair `i` of the vector registers, which follow the general ones. -/
def vregSlot (t : Target) (i : Nat) : Int32 := Int32.ofNat (16 + 8 * t.savedGprs.length + 16 * i)

def preambleArm (f : Frame) : List Emission :=
  [.arm (.stp .fp .lr .sp (-saveArea) .pre), .arm (.movSp .fp .sp)] ++
  (pairs f.target.savedGprs).zipIdx.map (fun (p, i) =>
    .arm (.stp p.1 p.2 .sp (gprSlot i) .offset)) ++
  (pairs f.target.savedVregs).zipIdx.map (fun (p, i) =>
    .arm (.stpD p.1 p.2 .sp (vregSlot f.target i))) ++
  if f.reserve = 0 then [] else [.arm (.subImm .sp .sp (UInt32.ofNat f.reserve))]

def postambleArm (f : Frame) : List Emission :=
  (if f.reserve = 0 then [] else [.arm (.addImm .sp .sp (UInt32.ofNat f.reserve))]) ++
  (pairs f.target.savedVregs).zipIdx.map (fun (p, i) =>
    .arm (.ldpD p.1 p.2 .sp (vregSlot f.target i))) ++
  (pairs f.target.savedGprs).zipIdx.map (fun (p, i) =>
    .arm (.ldp p.1 p.2 .sp (gprSlot i) .offset)) ++
  [.arm (.ldp .fp .lr .sp saveArea .post), .arm .ret]

/-- Code that opens the frame. The reserve is cut down to 32 bits where it enters an instruction. -/
def preamble (f : Frame) (vex : Bool) : List Emission :=
  if f.target.isX86 then f.preambleX86 vex else f.preambleArm

/-- Code that closes the frame and returns. -/
def postamble (f : Frame) (vex : Bool) : List Emission :=
  if f.target.isX86 then f.postambleX86 vex else f.postambleArm

end Frame

namespace Generator

/-- Opens a frame with at least `stack` bytes of working stack, which becomes the current one. -/
def preamble (g : Generator) (stack : StackSize) : Frame × Generator :=
  let f := Frame.ofStack g.table.target stack
  (f, { g.emit (f.preamble g.table.vex) with frame := some f })

/-- Closes the current frame and returns. The frame stays current. -/
def postamble (g : Generator) : Generator :=
  match g.frame with
  | some f => g.emit (f.postamble g.table.vex)
  | none => g.fail (.invalidOperand .postambleWithoutPreamble)

/-- What a frame needs at its end: its exit point, and the exit point around it. -/
structure Scope where
  exit : Code.Label
  outer : Option Code.Label
  deriving DecidableEq, Repr

def enterFrame (g : Generator) (stack : StackSize) : Frame × Scope × Generator :=
  let (f, g) := g.preamble stack
  let (exit, g) := g.newLabel
  (f, ⟨exit, g.exit⟩, { g with exit := some exit })

def leaveFrame (g : Generator) (s : Scope) : Generator :=
  { g.bind s.exit with exit := s.outer }.postamble

/-- A body between preamble and postamble. -/
def withFrame (g : Generator) (stack : StackSize) (body : Frame → Generator → Generator) :
    Generator :=
  let (f, scope, g) := g.enterFrame stack
  (body f g).leaveFrame scope

/-- The exit point of the innermost open frame; without one, an error and a label of no use. -/
def exitLabel (g : Generator) : Code.Label × Generator :=
  match g.exit with
  | some l => (l, g)
  | none => (g.fail (.invalidOperand .exitOutsideFrame)).newLabel

end Generator

end JitGemm
