import JitGemm.Isa
import JitGemm.Target

/-!
# Vector operations and their lowerings

A vector operation says what happens to the lanes of a register. Target, width and capability set
fix once how each operation is encoded, or that it has no encoding.
-/

namespace JitGemm

/-- Operations on lanes of f32, or of i32 where the name says so. -/
inductive VecOp where
  | load
  | store
  | zero
  | add
  | sub
  | mul
  | broadcastFromMem
  | broadcastFromReg
  /-- One i32 to every lane. -/
  | broadcastD
  /-- The first operand times the second, plus the third; the first is also the destination. -/
  | fmadd213
  /-- The second operand times the third, plus the first; the first is also the destination. -/
  | fmadd231
  | cmpGt
  | cmpGe
  | blend
  /-- i32 to i16 with signed saturation. -/
  | packSsdw
  /-- i16 to u8 with unsigned saturation. -/
  | packUswb
  | round
  | rcp
  | rsqrt
  | paddD
  | pmullD
  | intLoad
  | intStore
  deriving DecidableEq, Repr

/-- How an operation is encoded. -/
inductive Lowering where
  /-- Legacy two-operand form. -/
  | legacy
  | vex
  | evex
  /-- AArch64 Advanced SIMD. -/
  | asimd
  /-- A sequence of more primitive instructions. -/
  | synthesized
  deriving DecidableEq, Repr

namespace VecOp

def all : List VecOp :=
  [load, store, zero, add, sub, mul, broadcastFromMem, broadcastFromReg, broadcastD, fmadd213,
    fmadd231, cmpGt, cmpGe, blend, packSsdw, packUswb, round, rcp, rsqrt, paddD, pmullD, intLoad,
    intStore]

theorem mem_all (op : VecOp) : op ∈ all := by cases op <;> decide

def name : VecOp → String
  | load => "Load"
  | store => "Store"
  | zero => "Zero"
  | add => "Add"
  | sub => "Sub"
  | mul => "Mul"
  | broadcastFromMem => "BroadcastFromMem"
  | broadcastFromReg => "BroadcastFromReg"
  | broadcastD => "BroadcastD"
  | fmadd213 => "Fmadd213"
  | fmadd231 => "Fmadd231"
  | cmpGt => "CmpGt"
  | cmpGe => "CmpGe"
  | blend => "Blend"
  | packSsdw => "PackSsdw"
  | packUswb => "PackUswb"
  | round => "Round"
  | rcp => "Rcp"
  | rsqrt => "Rsqrt"
  | paddD => "PAddD"
  | pmullD => "PMulLD"
  | intLoad => "IntLoad"
  | intStore => "IntStore"

def isFma : VecOp → Bool
  | fmadd213 | fmadd231 => true
  | _ => false

/-- Integer operations whose 256-bit forms need AVX2. -/
def needsAvx2 : VecOp → Bool
  | broadcastD | packSsdw | packUswb | paddD | pmullD => true
  | _ => false

def fmaLowering (caps : IsaSet) : Lowering := if caps.contains .fma then .vex else .synthesized

def lower128 (caps : IsaSet) (op : VecOp) : Option Lowering :=
  if op.isFma then some (fmaLowering caps)
  else if caps.contains .avx then
    match op with
    | broadcastFromReg | broadcastD =>
      some (if caps.contains .avx2 then .vex else .synthesized)
    | _ => some .vex
  else
    match op with
    | broadcastFromMem | broadcastFromReg | broadcastD => some .synthesized
    | blend | round | pmullD => if caps.contains .sse41 then some .legacy else none
    | _ => some .legacy

def lower256 (caps : IsaSet) (op : VecOp) : Option Lowering :=
  if !caps.contains .avx then none
  else if op.isFma then some (fmaLowering caps)
  else if op.needsAvx2 then (if caps.contains .avx2 then some .vex else none)
  else
    match op with
    | broadcastFromReg => some (if caps.contains .avx2 then .vex else .synthesized)
    | _ => some .vex

/-- Compares and blends have none at this width: they would go through mask registers. -/
def lower512 (caps : IsaSet) (op : VecOp) : Option Lowering :=
  if !caps.contains .avx512Common then none else
    match op with
    | cmpGt | cmpGe | blend => none
    | packSsdw | packUswb => if caps.contains .avx512Core then some .evex else none
    | _ => some .evex

def lowerAsimd (len : VecLen) (caps : IsaSet) (op : VecOp) : Option Lowering :=
  if len ≠ .v128 ∨ !caps.contains .asimd then none else
    match op with
    | load | store | zero | add | sub | mul | broadcastFromMem | broadcastFromReg | fmadd231
    | paddD | intLoad | intStore => some .asimd
    | _ => none

end VecOp

def Lowering.name : Lowering → String
  | .legacy => "Legacy"
  | .vex => "Vex"
  | .evex => "Evex"
  | .asimd => "Asimd"
  | .synthesized => "Synthesized"

/-- What fixes the lowering of every operation. -/
structure OpTable where
  target : Target
  len : VecLen
  caps : IsaSet
  deriving DecidableEq, Repr

namespace OpTable

def lowering? (t : OpTable) (op : VecOp) : Option Lowering :=
  if t.target.isX86 then
    match t.len with
    | .v128 => op.lower128 t.caps
    | .v256 => op.lower256 t.caps
    | .v512 => op.lower512 t.caps
  else op.lowerAsimd t.len t.caps

/-- Whether the VEX forms are usable, which also picks the form of synthesized sequences. -/
def vex (t : OpTable) : Bool := t.target.isX86 && t.caps.contains .avx

/-- Lowering of the plain arithmetic inside synthesized sequences. -/
def baseLowering (t : OpTable) : Lowering :=
  match t.len with
  | .v512 => .evex
  | _ => if t.vex then .vex else .legacy

def numVregs (t : OpTable) : UInt8 :=
  if t.target.isX86 && t.len ≠ .v512 then 16 else 32

end OpTable

end JitGemm
