import JitGemm.Generator.Emission
import JitGemm.Text.Quoted

/-!
# Finished kernels and who hears of them

A generator is finished into a kernel or an error. A finished kernel is told to the registrar and,
if dumping is on, written to a file; both are entries of a journal. Dump numbers grow by one per
attempt, whether or not the file could be written. Mapping the code into executable memory is left
out.
-/

namespace JitGemm

/-- Finished code with its identity. -/
structure Kernel where
  name : String
  origin : String
  target : Target
  code : Array UInt8
  deriving DecidableEq, Repr

namespace Kernel

def size (k : Kernel) : Nat := k.code.size

def text (k : Kernel) : String :=
  "EmittedKernel \x7b name: " ++ Text.quoted k.name ++ ", origin: " ++ Text.quoted k.origin ++
    ", target: " ++ k.target.tag ++ ", size: " ++ k.size.repr ++ " \x7d"

end Kernel

/-- Largest kernel where nothing else is said. -/
def defaultCapacity : Nat := 262144

/-- Errors come in this order: the first one while emitting, the first branch that cannot be
resolved, no code at all, too much code. -/
def Generator.finish (g : Generator) (capacity : Nat) : Except CodeError Kernel :=
  match g.buffer.finish with
  | .error e => .error e
  | .ok code =>
    if code.isEmpty then .error .emptyCode
    else if capacity < code.size then .error (.bufferExhausted code.size capacity)
    else .ok ⟨g.name, g.origin, g.table.target, code⟩

/-! ## Dump files -/

structure DumpPolicy where
  /-- `none` leaves the choice to the toggle. -/
  wanted : Option Bool := none
  /-- The process-wide toggle. -/
  toggle : Bool := false
  /-- Whether the dump directory exists. -/
  directory : Bool := true
  deriving DecidableEq, Repr

def DumpPolicy.enabled (p : DumpPolicy) : Bool := p.wanted.getD p.toggle

structure Dump where
  name : String
  index : Nat
  code : Array UInt8
  deriving DecidableEq, Repr

/-- File name of a dump whose number is written `index`. -/
def Dump.fileName (name index : String) : String :=
  "igjit_dump_" ++ name ++ "." ++ index ++ ".bin"

/-- A file name is one path component of at most 255 bytes. -/
def Dump.writable (name : String) (index : Nat) : Bool :=
  name.toList.all (fun c => c ≠ '/' && c ≠ '\x00') &&
    (Dump.fileName name index.repr).utf8ByteSize ≤ 255

/-! ## The journal -/

structure Registration where
  name : String
  size : Nat
  target : Target
  deriving DecidableEq, Repr

/-- Everything that was told about finished kernels, oldest first. -/
structure Journal where
  registered : Array Registration := #[]
  dumps : Array Dump := #[]
  /-- Number of the next dump. -/
  nextDump : Nat := 0
  deriving DecidableEq, Repr

namespace Journal

def register (j : Journal) (k : Kernel) : Journal :=
  { j with registered := j.registered.push ⟨k.name, k.size, k.target⟩ }

def dump (j : Journal) (p : DumpPolicy) (k : Kernel) : Journal :=
  if !p.enabled then j else
    let index := j.nextDump
    let dumps := if p.directory && Dump.writable k.name index
      then j.dumps.push ⟨k.name, index, k.code⟩ else j.dumps
    { j with dumps, nextDump := index + 1 }

end Journal

/-- How kernels are finished. -/
structure KernelPolicy where
  capacity : Nat := defaultCapacity
  dump : DumpPolicy := {}
  deriving DecidableEq, Repr

/-- Finishes a kernel and enters it in the journal. An error enters nothing. -/
def Generator.publish (g : Generator) (p : KernelPolicy) (j : Journal) :
    Except CodeError Kernel × Journal :=
  match g.finish p.capacity with
  | .error e => (.error e, j)
  | .ok k => (.ok k, (j.register k).dump p.dump k)

end JitGemm
