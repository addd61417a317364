import JitGemm.X86.Encode

/-!
# Decoding x86-64

A decoder written from the instruction formats, with nothing from the encoder: prefixes, the fields
of REX, VEX and EVEX, ModRM, SIB and displacements. What has no place in the instruction type, such
as an address without a base, is not decoded.
-/

namespace JitGemm.X86

open Code (word32)

/-- One decoded instruction. Branches carry their byte distance. -/
inductive Op where
  | plain (i : Instr)
  | jmp (distance : Int32)
  | jcc (cc : Cond) (distance : Int32)
  deriving DecidableEq, Repr

/-- What the formats of vector instructions leave open. -/
structure Rules where
  /-- Whether an immediate byte follows. -/
  hasImm : Opcode → Bool
  /-- What a one-byte displacement counts in under EVEX. -/
  unit : Opcode → Int32

-- ---------------------------------------------------------------------------
-- Operands
-- ---------------------------------------------------------------------------

/-- Bits that a prefix adds to the fields of ModRM and SIB, and the width bit. -/
structure Extension where
  w : Bool := false
  r : Bool := false
  x : Bool := false
  b : Bool := false
  deriving DecidableEq, Repr

def hasBit (byte n : UInt8) : Bool := byte >>> n &&& 1 == 1

def extend (high : Bool) (n : UInt8) : UInt8 := if high then n + 8 else n

def readInt8 : List UInt8 → Option (Int32 × List UInt8)
  | n :: rest => some (n.toInt8.toInt32, rest)
  | [] => none

def readInt32 : List UInt8 → Option (Int32 × List UInt8)
  | a :: b :: c :: d :: rest => some ((word32 a b c d).toInt32, rest)
  | _ => none

def readDisp (mode : UInt8) (unit : Int32) (bytes : List UInt8) : Option (Int32 × List UInt8) :=
  if mode = 0 then some (0, bytes)
  else if mode = 1 then (readInt8 bytes).map fun (n, rest) => (n * unit, rest)
  else readInt32 bytes

/-- The address of a memory operand, after ModRM. Index 4 says that there is none; base 5 without
displacement, and field 5 without SIB, stand for addresses without a base register. -/
def readAddress (e : Extension) (unit : Int32) (mode rm : UInt8) (bytes : List UInt8) :
    Option (Address × List UInt8) :=
  if rm = 4 then
    match bytes with
    | [] => none
    | s :: rest =>
      let index := extend e.x (s >>> 3 &&& 7)
      if mode = 0 ∧ s &&& 7 = 5 then none else
        (readDisp mode unit rest).map fun (disp, rest) =>
          ({ base := ⟨extend e.b (s &&& 7)⟩
             index := if index = 4 then none else some ⟨⟨index⟩, (1 : UInt8) <<< (s >>> 6)⟩
             disp }, rest)
  else if mode = 0 ∧ rm = 5 then none
  else (readDisp mode unit bytes).map fun (disp, rest) => ({ base := ⟨extend e.b rm⟩, disp }, rest)

/-- ModRM and what belongs to it: the register field and the operand. With `wide`, the index bit is
bit 4 of a register operand. -/
def readRm (wide : Bool) (e : Extension) (unit : Int32) :
    List UInt8 → Option (UInt8 × Rm × List UInt8)
  | [] => none
  | m :: rest =>
    let reg := m >>> 3 &&& 7
    let rm := m &&& 7
    if m >>> 6 = 3 then
      let n := extend e.b rm
      some (reg, .reg (if wide && e.x then n + 16 else n), rest)
    else (readAddress e unit (m >>> 6) rm rest).map fun (a, rest) => (reg, .mem a, rest)

def takeRex : List UInt8 → Extension × List UInt8
  | byte :: rest =>
    if byte &&& 0xF0 = 0x40 then
      (⟨hasBit byte 3, hasBit byte 2, hasBit byte 1, hasBit byte 0⟩, rest)
    else ({}, byte :: rest)
  | [] => ({}, [])

-- ---------------------------------------------------------------------------
-- Integer instructions and branches
-- ---------------------------------------------------------------------------

def condition? (n : UInt8) : Option Cond :=
  match n with
  | 0x2 => some .below
  | 0x3 => some .aboveEq
  | 0x4 => some .zero
  | 0x5 => some .notZero
  | 0xC => some .less
  | 0xD => some .greaterEq
  | 0xE => some .lessEq
  | 0xF => some .greater
  | _ => none

def decodeBranch (bytes : List UInt8) : Option (Op × List UInt8) :=
  match bytes with
  | 0xE9 :: rest => (readInt32 rest).map fun (n, rest) => (.jmp n, rest)
  | 0x0F :: byte :: rest =>
    if byte &&& 0xF0 = 0x80 then do
      let cc ← condition? (byte &&& 0x0F)
      let (n, rest) ← readInt32 rest
      return (.jcc cc n, rest)
    else none
  | _ => none

/-- Arithmetic with an immediate, by the register field. -/
def immediateForm? (field : UInt8) (r : Gpr) (imm : Int32) : Option Instr :=
  match field with
  | 0 => some (.addImm r imm)
  | 5 => some (.subImm r imm)
  | 7 => some (.cmpImm r imm)
  | _ => none

/-- The 64-bit forms with ModRM, by opcode. -/
def decodeWide (opcode : UInt8) (e : Extension) (bytes : List UInt8) :
    Option (Instr × List UInt8) := do
  let (field, rm, rest) ← readRm false e 1 bytes
  let reg : Gpr := ⟨extend e.r field⟩
  match rm with
  | .mem a =>
    match opcode with
    | 0x89 => return (.store a reg, rest)
    | 0x8B => return (.load reg a, rest)
    | 0x8D => return (.lea reg a, rest)
    | _ => none
  | .reg n =>
    let r : Gpr := ⟨n⟩
    match opcode with
    | 0x89 => return (.mov r reg, rest)
    | 0x01 => return (.add r reg, rest)
    | 0x29 => return (.sub r reg, rest)
    | 0x31 => return (.xor r reg, rest)
    | 0x39 => return (.cmp r reg, rest)
    | 0x85 => return (.test r reg, rest)
    | 0x83 =>
      let (imm, rest) ← readInt8 rest
      return (← immediateForm? field r imm, rest)
    | 0x81 =>
      let (imm, rest) ← readInt32 rest
      return (← immediateForm? field r imm, rest)
    | 0xC7 =>
      let (imm, rest) ← readInt32 rest
      if field = 0 then return (.movImm r imm.toInt64, rest) else none
    | 0xC1 =>
      match rest with
      | n :: rest => if field = 4 then return (.shlImm r n, rest) else none
      | [] => none
    | 0xF7 => if field = 3 then return (.neg r, rest) else none
    | 0xFF =>
      if field = 0 then return (.inc r, rest)
      else if field = 1 then return (.dec r, rest)
      else none
    | _ => none

def decodeInteger (bytes : List UInt8) : Option (Instr × List UInt8) :=
  let (e, rest) := takeRex bytes
  match rest with
  | [] => none
  | opcode :: rest =>
    if opcode &&& 0xF8 = 0x50 then some (.push ⟨extend e.b (opcode &&& 7)⟩, rest)
    else if opcode &&& 0xF8 = 0x58 then some (.pop ⟨extend e.b (opcode &&& 7)⟩, rest)
    else if opcode = 0xC3 then some (.ret, rest)
    else if !e.w then none
    else if opcode &&& 0xF8 = 0xB8 then
      match rest with
      | a :: b :: c :: d :: a' :: b' :: c' :: d' :: rest =>
        let imm := (word32 a b c d).toUInt64 ||| (word32 a' b' c' d').toUInt64 <<< 32
        some (.movImm ⟨extend e.b (opcode &&& 7)⟩ imm.toInt64, rest)
      | _ => none
    else if opcode = 0x0F then
      match rest with
      | 0xAF :: rest => do
        let (field, rm, rest) ← readRm false e 1 rest
        match rm with
        | .reg n => return (.imul ⟨extend e.r field⟩ ⟨n⟩, rest)
        | .mem _ => none
      | _ => none
    else decodeWide opcode e rest

-- ---------------------------------------------------------------------------
-- Vector instructions
-- ---------------------------------------------------------------------------

def prefix? (n : UInt8) : Pp :=
  match n with
  | 0 => .none
  | 1 => .p66
  | 2 => .pF3
  | _ => .pF2

def map? (n : UInt8) : Option OpMap :=
  match n with
  | 1 => some .m0F
  | 2 => some .m0F38
  | 3 => some .m0F3A
  | _ => none

def takePrefix : List UInt8 → Pp × List UInt8
  | 0x66 :: rest => (.p66, rest)
  | 0xF3 :: rest => (.pF3, rest)
  | 0xF2 :: rest => (.pF2, rest)
  | bytes => (.none, bytes)

def takeOpcode : List UInt8 → Option (OpMap × UInt8 × List UInt8)
  | 0x0F :: 0x38 :: byte :: rest => some (.m0F38, byte, rest)
  | 0x0F :: 0x3A :: byte :: rest => some (.m0F3A, byte, rest)
  | 0x0F :: byte :: rest => some (.m0F, byte, rest)
  | _ => none

def takeImm (wanted : Bool) (bytes : List UInt8) : Option (Option UInt8 × List UInt8) :=
  if wanted then
    match bytes with
    | n :: rest => some (some n, rest)
    | [] => none
  else some (none, bytes)

def decodeSse (rules : Rules) (bytes : List UInt8) : Option (Instr × List UInt8) := do
  let (pp, rest) := takePrefix bytes
  let (e, rest) := takeRex rest
  let (map, byte, rest) ← takeOpcode rest
  let op : Opcode := ⟨pp, map, byte⟩
  if e.w then none
  let (field, rm, rest) ← readRm false e 1 rest
  let (imm, rest) ← takeImm (rules.hasImm op) rest
  return (.sse op (extend e.r field) rm imm, rest)

/-- What follows the head of a VEX instruction. The bits of `e` are those the head has inverted. -/
def decodeVexTail (rules : Rules) (e : Extension) (map : OpMap) (head : UInt8)
    (bytes : List UInt8) : Option (Instr × List UInt8) :=
  match bytes with
  | [] => none
  | byte :: rest => do
    let op : Opcode := ⟨prefix? (head &&& 3), map, byte⟩
    let (field, rm, rest) ← readRm false e 1 rest
    let (imm, rest) ← takeImm (rules.hasImm op) rest
    return (.vex op e.w (hasBit head 2) (extend e.r field) (~~~head >>> 3 &&& 0xF) rm imm, rest)

/-- Only full-width forms without masking, rounding control or broadcast. -/
def decodeEvexTail (rules : Rules) (p0 p1 p2 : UInt8) (bytes : List UInt8) :
    Option (Instr × List UInt8) :=
  match bytes with
  | [] => none
  | byte :: rest => do
    if p0 &&& 0x08 ≠ 0 ∨ p1 &&& 0x04 = 0 ∨ p2 &&& 0xF7 ≠ 0x40 then none
    let map ← map? (p0 &&& 7)
    let op : Opcode := ⟨prefix? (p1 &&& 3), map, byte⟩
    let e : Extension := ⟨hasBit p1 7, !hasBit p0 7, !hasBit p0 6, !hasBit p0 5⟩
    let (field, rm, rest) ← readRm true e (rules.unit op) rest
    let (imm, rest) ← takeImm (rules.hasImm op) rest
    let reg := extend e.r field + if hasBit p0 4 then 0 else 16
    let vvvv := (~~~p1 >>> 3 &&& 0xF) + if hasBit p2 3 then 0 else 16
    return (.evex op e.w reg vvvv rm imm, rest)

def decodeVector (rules : Rules) (bytes : List UInt8) : Option (Instr × List UInt8) :=
  match bytes with
  | 0xC5 :: head :: rest => decodeVexTail rules { r := !hasBit head 7 } .m0F head rest
  | 0xC4 :: first :: head :: rest => do
    let map ← map? (first &&& 0x1F)
    let e : Extension := ⟨hasBit head 7, !hasBit first 7, !hasBit first 6, !hasBit first 5⟩
    decodeVexTail rules e map head rest
  | 0x62 :: p0 :: p1 :: p2 :: rest => decodeEvexTail rules p0 p1 p2 rest
  | _ => decodeSse rules bytes

-- ---------------------------------------------------------------------------
-- All instructions
-- ---------------------------------------------------------------------------

/-- The next instruction and what follows it. One VEX opcode has no ModRM. -/
def decode (rules : Rules) (bytes : List UInt8) : Option (Op × List UInt8) :=
  match bytes with
  | 0xC5 :: 0xF8 :: 0x77 :: rest => some (.plain .vzeroupper, rest)
  | _ =>
    decodeBranch bytes <|>
      (decodeInteger bytes <|> decodeVector rules bytes).map fun (i, rest) => (.plain i, rest)

end JitGemm.X86
