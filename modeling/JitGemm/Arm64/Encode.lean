import JitGemm.Arm64.Instr

/-!
# AArch64 encoding

Every instruction is one word, emitted also when an operand is at fault: the fault is what keeps the
code from being used. Of several faults the first operand's counts.
-/

namespace JitGemm.Arm64

open Code (Chunk Label le32)

def gprField (r : Gpr) : UInt32 := (r.num &&& 31).toUInt32

def vregField (v : Vreg) : UInt32 := (v.num &&& 31).toUInt32

def gprFault (r : Gpr) : Option OperandFault := if 31 < r.num then some (.noGpr r.num) else none

def vregFault (v : Vreg) : Option OperandFault := if 31 < v.num then some (.noVreg v.num) else none

def firstFault (faults : List (Option OperandFault)) : Option OperandFault :=
  faults.findSome? id

def one (w : UInt32) (faults : List (Option OperandFault)) : Chunk :=
  { bytes := le32 w, fault := firstFault faults }

/-! ## Pairs -/

def PairMode.base : PairMode → UInt32
  | .pre => 0xA9800000
  | .offset => 0xA9000000
  | .post => 0xA8800000

def loadPairBit : UInt32 := 0x00400000

/-- Pair offsets count eight bytes in seven signed bits. -/
def pairOffsetOk (offset : Int32) : Bool := offset % 8 == 0 && -512 ≤ offset && offset ≤ 504

def pairField (offset : Int32) : UInt32 :=
  if pairOffsetOk offset then ((offset / 8).toUInt32 &&& 0x7F) <<< 15 else 0

def pairFault (offset : Int32) : Option OperandFault :=
  if pairOffsetOk offset then none else some (.pairOffset offset)

def pair (base t t2 : UInt32) (n : Gpr) (offset : Int32) : UInt32 :=
  base ||| pairField offset ||| t2 <<< 10 ||| gprField n <<< 5 ||| t

def gprPair (base : UInt32) (t t2 n : Gpr) (offset : Int32) : Chunk :=
  one (pair base (gprField t) (gprField t2) n offset)
    [gprFault t, gprFault t2, pairFault offset, gprFault n]

def vregPair (base : UInt32) (t t2 : Vreg) (n : Gpr) (offset : Int32) : Chunk :=
  one (pair base (vregField t) (vregField t2) n offset)
    [vregFault t, vregFault t2, pairFault offset, gprFault n]

/-! ## Arithmetic -/

def immFault (imm : UInt32) : Option OperandFault :=
  if 0xFFF < imm then some (.wideImmediate imm) else none

def imm12 (base : UInt32) (d n : Gpr) (imm : UInt32) : Chunk :=
  one (base ||| (imm &&& 0xFFF) <<< 10 ||| gprField n <<< 5 ||| gprField d)
    [immFault imm, gprFault d, gprFault n]

def rrr (base : UInt32) (d n m : Gpr) : Chunk :=
  one (base ||| gprField m <<< 16 ||| gprField n <<< 5 ||| gprField d)
    [gprFault d, gprFault n, gprFault m]

/-- A left shift as a bit field move; the amount counts modulo 64. -/
def lsl (d n : Gpr) (shift : UInt8) : Chunk :=
  let s := (shift &&& 63).toUInt32
  let base : UInt32 := 0xD3400000
  one (base ||| ((64 - s) &&& 63) <<< 16 ||| (63 - s) <<< 10 ||| gprField n <<< 5 ||| gprField d)
    [gprFault d, gprFault n]

/-- A half-word move; the shift selects the half-word it is divided down to. -/
def movWide (base : UInt32) (d : Gpr) (imm : UInt16) (shift : UInt8) : UInt32 :=
  base ||| (shift / 16).toUInt32 <<< 21 ||| imm.toUInt32 <<< 5 ||| gprField d

def movzBase : UInt32 := 0xD2800000

def movkBase : UInt32 := 0xF2800000

/-- The low half-word with zeros around it, then every other half-word that is not zero. -/
def movImmWords (d : Gpr) (imm : UInt64) : List UInt32 :=
  movWide movzBase d imm.toUInt16 0 ::
    ([16, 32, 48] : List UInt8).filterMap fun shift =>
      let part := (imm >>> shift.toUInt64).toUInt16
      if part == 0 then none else some (movWide movkBase d part shift)

/-! ## Loads and stores -/

/-- Offsets that fit the scaled unsigned immediate of an access of `size` bytes. -/
def fitsScaled (offset size : Int32) : Bool :=
  0 ≤ offset && offset % size == 0 && offset / size ≤ 0xFFF

def scaledFault (offset size : Int32) : Option OperandFault :=
  if fitsScaled offset size then none else some (.scaledOffset offset size)

def scaledField (offset size : Int32) : UInt32 := ((offset / size).toUInt32 &&& 0xFFF) <<< 10

def scaled (base t : UInt32) (tFault : Option OperandFault) (n : Gpr) (offset size : Int32) :
    Chunk :=
  one (base ||| scaledField offset size ||| gprField n <<< 5 ||| t)
    [tFault, scaledFault offset size, gprFault n]

/-! ## All instructions -/

def vec3 (base : UInt32) (d n m : Vreg) : Chunk :=
  one (base ||| vregField m <<< 16 ||| vregField n <<< 5 ||| vregField d)
    [vregFault d, vregFault n, vregFault m]

def branch (kind : Code.BranchKind) (w : UInt32) (l : Label) (fault : Option OperandFault) :
    Chunk :=
  { bytes := le32 w, branch := some ⟨kind, 0, l⟩, fault }

def Cond.code : Cond → UInt32
  | .eq => 0
  | .ne => 1

def Instr.chunk : Instr → Chunk
  | .word w => one w []
  | .stp t t2 n offset mode => gprPair mode.base t t2 n offset
  | .ldp t t2 n offset mode => gprPair (mode.base ||| loadPairBit) t t2 n offset
  | .stpD t t2 n offset => vregPair 0x6D000000 t t2 n offset
  | .ldpD t t2 n offset => vregPair 0x6D400000 t t2 n offset
  | .addImm d n imm => imm12 0x91000000 d n imm
  | .subImm d n imm => imm12 0xD1000000 d n imm
  | .subsImm d n imm => imm12 0xF1000000 d n imm
  | .movSp d n => imm12 0x91000000 d n 0
  | .add d n m => rrr 0x8B000000 d n m
  | .sub d n m => rrr 0xCB000000 d n m
  | .mul d n m => rrr 0x9B007C00 d n m
  | .mov d m => rrr 0xAA0003E0 d ⟨0⟩ m
  | .neg d m => rrr 0xCB0003E0 d ⟨0⟩ m
  | .lslImm d n shift => lsl d n shift
  | .movz d imm shift => one (movWide movzBase d imm shift) [gprFault d]
  | .movk d imm shift => one (movWide movkBase d imm shift) [gprFault d]
  | .movImm d imm => { bytes := (movImmWords d imm).flatMap le32, fault := gprFault d }
  | .ldr t n offset => scaled 0xF9400000 (gprField t) (gprFault t) n offset 8
  | .str t n offset => scaled 0xF9000000 (gprField t) (gprFault t) n offset 8
  | .ldrQ t n offset => scaled 0x3DC00000 (vregField t) (vregFault t) n offset 16
  | .strQ t n offset => scaled 0x3D800000 (vregField t) (vregFault t) n offset 16
  | .v3 base d n m => vec3 base d n m
  | .v2 base d n =>
    one (base ||| vregField n <<< 5 ||| vregField d) [vregFault d, vregFault n]
  | .moviZero d => one (0x6F00E400 ||| vregField d) [vregFault d]
  | .ld1r4s t n =>
    one ((0x4D40C800 : UInt32) ||| gprField n <<< 5 ||| vregField t) [vregFault t, gprFault n]
  | .b l => branch .imm26 0x14000000 l none
  | .bCond cc l => branch .imm19 (0x54000000 ||| cc.code) l none
  | .cbz t l => branch .imm19 (0xB4000000 ||| gprField t) l (gprFault t)
  | .cbnz t l => branch .imm19 (0xB5000000 ||| gprField t) l (gprFault t)
  | .ret => one 0xD65F03C0 []

end JitGemm.Arm64
