import JitGemm.Code.Bytes
import JitGemm.Code.Fault

/-!
# Code buffers

An encoder answers with a `Chunk`: bytes, at most one branch whose displacement is still open, and
at most one fault. A buffer appends chunks, keeps the first error for good, and resolves all
branches at once when it is finished.
-/

namespace JitGemm.Code

structure Label where
  id : Nat
  deriving DecidableEq, Repr

inductive BranchKind where
  /-- 32-bit byte distance from the end of the field. -/
  | rel32
  /-- 26-bit word distance from the instruction, in its low bits. -/
  | imm26
  /-- 19-bit word distance from the instruction, from bit 5 up. -/
  | imm19
  deriving DecidableEq, Repr

/-- A branch whose field starts `offset` bytes into its chunk. -/
structure Branch where
  kind : BranchKind
  offset : Nat
  label : Label
  deriving DecidableEq, Repr

structure Chunk where
  bytes : List UInt8
  branch : Option Branch := none
  fault : Option OperandFault := none
  deriving DecidableEq, Repr

/-- Bytes, or no bytes and a fault. -/
def Chunk.ofExcept : Except OperandFault (List UInt8) → Chunk
  | .ok bytes => { bytes }
  | .error fault => { bytes := [], fault := some fault }

/-- A branch to be resolved, with the position of its field in the buffer. -/
structure Fixup where
  kind : BranchKind
  position : Nat
  label : Label
  deriving DecidableEq, Repr

structure Buffer where
  bytes : Array UInt8 := #[]
  /-- Where each label is bound. -/
  labels : Array (Option Nat) := #[]
  fixups : Array Fixup := #[]
  error : Option CodeError := none
  deriving DecidableEq, Repr

namespace Buffer

/-- Records `e` unless an earlier error is pending. -/
def fail (b : Buffer) (e : CodeError) : Buffer :=
  { b with error := b.error <|> some e }

def put (b : Buffer) (c : Chunk) : Buffer :=
  let fixups := match c.branch with
    | none => b.fixups
    | some br => b.fixups.push ⟨br.kind, b.bytes.size + br.offset, br.label⟩
  { b with
    bytes := b.bytes ++ c.bytes
    fixups
    error := b.error <|> c.fault.map .invalidOperand }

def newLabel (b : Buffer) : Label × Buffer :=
  (⟨b.labels.size⟩, { b with labels := b.labels.push none })

/-- Binds a label to the current end of the code. -/
def bind (b : Buffer) (l : Label) : Buffer :=
  match b.labels[l.id]? with
  | some none => { b with labels := b.labels.setIfInBounds l.id (some b.bytes.size) }
  | some (some _) => b.fail (.invalidOperand (.labelBoundTwice l.id))
  | none => b.fail (.unboundLabel l.id)

def position? (b : Buffer) (l : Label) : Option Nat := (b.labels[l.id]?).join

end Buffer

/-- Bits of a word distance field. -/
def BranchKind.bits : BranchKind → Nat
  | .rel32 => 32
  | .imm26 => 26
  | .imm19 => 19

/-- Lowest bit of the field in its word. -/
def BranchKind.shift : BranchKind → Nat
  | .imm19 => 5
  | _ => 0

namespace Fixup

/-- What the field says when the branch goes to `target`. -/
def distance (f : Fixup) (target : Nat) : Int :=
  match f.kind with
  | .rel32 => target - (f.position + 4 : Int)
  | _ => Int.tdiv (target - f.position) 4

def reaches (f : Fixup) (target : Nat) : Bool :=
  let limit : Int := (1 <<< (f.kind.bits - 1) : Nat)
  f.distance target < limit && -limit ≤ f.distance target

/-- The word at the field with the distance entered. A byte distance replaces the word; a word
distance is or-ed into the instruction. -/
def word (f : Fixup) (old : UInt32) (distance : Int) : UInt32 :=
  let field := UInt32.ofNat (distance % (1 <<< f.kind.bits : Nat)).toNat
  match f.kind with
  | .rel32 => field
  | k => old ||| field <<< UInt32.ofNat k.shift

def patch (f : Fixup) (bytes : Array UInt8) (target : Nat) : Array UInt8 :=
  write bytes f.position (le32 (f.word (read32 bytes f.position) (f.distance target)))

end Fixup

namespace Buffer

def resolve (b : Buffer) (bytes : Array UInt8) (f : Fixup) : Except CodeError (Array UInt8) :=
  match b.position? f.label with
  | none => .error (.unboundLabel f.label.id)
  | some target =>
    if f.reaches target then .ok (f.patch bytes target)
    else .error (.invalidOperand (.branchOutOfRange f.label.id))

/-- The code with every branch resolved. A pending error comes first, then the first branch in
emission order that cannot be resolved. -/
def finish (b : Buffer) : Except CodeError (Array UInt8) :=
  match b.error with
  | some e => .error e
  | none => b.fixups.toList.foldlM b.resolve b.bytes

end Buffer

end JitGemm.Code
