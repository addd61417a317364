import JitGemm.Arm64.Encode
import JitGemm.Frame
import JitGemm.X86.Encode

/-!
# Emissions and the generator state

Operations lower to lists of emissions: machine instructions of one architecture, or the record of
an error. The generator applies them to its code buffer and keeps the labels and frames that
structure the code.
-/

namespace JitGemm

inductive Emission where
  | x86 (i : X86.Instr)
  | arm (i : Arm64.Instr)
  | fail (e : CodeError)
  deriving DecidableEq, Repr

namespace Emission

def apply (b : Code.Buffer) : Emission → Code.Buffer
  | x86 i => b.put i.chunk
  | arm i => b.put i.chunk
  | fail e => b.fail e

def refuse (cause : OperandFault) : Emission := .fail (.invalidOperand cause)

end Emission

/-- A kernel under construction. -/
structure Generator where
  name : String
  /-- Tag of what asked for the kernel. -/
  origin : String
  table : OpTable
  buffer : Code.Buffer := {}
  /-- The frame that the last preamble opened. -/
  frame : Option Frame := none
  /-- Exit point of the innermost open frame. -/
  exit : Option Code.Label := none
  deriving DecidableEq, Repr

namespace Generator

def emit (g : Generator) (es : List Emission) : Generator :=
  { g with buffer := es.foldl Emission.apply g.buffer }

@[simp] theorem emit_nil (g : Generator) : g.emit [] = g := rfl

theorem emit_append (g : Generator) (es fs : List Emission) :
    g.emit (es ++ fs) = (g.emit es).emit fs := by
  simp [emit, List.foldl_append]

def fail (g : Generator) (e : CodeError) : Generator := { g with buffer := g.buffer.fail e }

def newLabel (g : Generator) : Code.Label × Generator :=
  let (l, buffer) := g.buffer.newLabel
  (l, { g with buffer })

def bind (g : Generator) (l : Code.Label) : Generator := { g with buffer := g.buffer.bind l }

end Generator

/-- The register that large offsets, constant products and address arithmetic overwrite. -/
def Target.scratchGpr (t : Target) : Gpr := if t.isX86 then .r11 else .x16

/-- The register that synthesized vector sequences overwrite, the last one there is. -/
def OpTable.scratchVreg (t : OpTable) : Vreg := ⟨t.numVregs - 1⟩

end JitGemm
