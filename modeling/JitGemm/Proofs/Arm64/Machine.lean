import JitGemm.Generator.Emission
import JitGemm.Proofs.Arm64.Decode
import JitGemm.Proofs.X86.Memory

/-!
# Running AArch64 code

The architectural effect of the instructions on general registers, of pairs, loads and stores, and
of branches, on registers, the zero flag and memory. Number 31 is the stack pointer as a base and in
immediate additions, and the zero register elsewhere. An instruction outside this set stops the
machine, and so does one whose effect the architecture leaves open. Code lies in memory of its own,
which no store reaches.
-/

namespace JitGemm.Arm64

open X86 (Memory)

structure Machine where
  gpr : Gpr → UInt64
  sp : UInt64
  /-- Four lanes of 32 bits. -/
  vec : Vreg → Fin 4 → UInt32
  zf : Bool
  mem : Memory

namespace Machine

variable (s : Machine)

-- ---------------------------------------------------------------------------
-- Registers and memory
-- ---------------------------------------------------------------------------

/-- A register whose number 31 is zero. -/
def reg (r : Gpr) : UInt64 := if r = .sp then 0 else s.gpr r

/-- A register whose number 31 is the stack pointer. -/
def base (r : Gpr) : UInt64 := if r = .sp then s.sp else s.gpr r

def setGpr (r : Gpr) (w : UInt64) : Machine :=
  { s with gpr := fun q => if q = r then w else s.gpr q }

def setReg (r : Gpr) (w : UInt64) : Machine := if r = .sp then s else s.setGpr r w

def setBase (r : Gpr) (w : UInt64) : Machine :=
  if r = .sp then { s with sp := w } else s.setGpr r w

def setVec (v : Vreg) (lanes : Fin 4 → UInt32) : Machine :=
  { s with vec := fun q => if q = v then lanes else s.vec q }

def lanes (v : Vreg) (i : Nat) : UInt32 := s.vec v (Fin.ofNat 4 i)

/-- The first `n` lanes at an address, with zeros above them. -/
def lanesAt (a : UInt64) (n : Nat) (i : Fin 4) : UInt32 :=
  if i < n then s.mem.read32 (a + UInt64.ofNat (4 * i)) else 0

def offset (n : Int32) : UInt64 := n.toInt64.toUInt64

-- ---------------------------------------------------------------------------
-- Pairs
-- ---------------------------------------------------------------------------

/-- Where a pair lies, and what the base is afterwards. -/
def pairAt (n : Gpr) (off : Int32) : PairMode → UInt64 × UInt64
  | .pre => (s.base n + offset off, s.base n + offset off)
  | .offset => (s.base n + offset off, s.base n)
  | .post => (s.base n, s.base n + offset off)

/-- Whether a pair moves a base that is one of its own registers. -/
def movesItself (t t2 n : Gpr) (mode : PairMode) : Bool :=
  mode != .offset && n != .sp && (n == t || n == t2)

def storePair (t t2 n : Gpr) (off : Int32) (mode : PairMode) : Machine :=
  let (a, after) := s.pairAt n off mode
  { s.setBase n after with mem := (s.mem.write64 a (s.reg t)).write64 (a + 8) (s.reg t2) }

def loadPair (t t2 n : Gpr) (off : Int32) (mode : PairMode) : Machine :=
  let (a, after) := s.pairAt n off mode
  ((s.setBase n after).setReg t (s.mem.read64 a)).setReg t2 (s.mem.read64 (a + 8))

def storeHalves (v v2 : Vreg) (a : UInt64) : Machine :=
  { s with mem := (s.mem.writeWords a 2 (s.lanes v)).writeWords (a + 8) 2 (s.lanes v2) }

def loadHalves (v v2 : Vreg) (a : UInt64) : Machine :=
  (s.setVec v (s.lanesAt a 2)).setVec v2 (s.lanesAt (a + 8) 2)

-- ---------------------------------------------------------------------------
-- All instructions
-- ---------------------------------------------------------------------------

/-- One instruction other than branches and returns. -/
def exec : Instr → Option Machine
  | .stp t t2 n off mode =>
    if movesItself t t2 n mode then none else some (s.storePair t t2 n off mode)
  | .ldp t t2 n off mode =>
    if movesItself t t2 n mode || t == t2 then none else some (s.loadPair t t2 n off mode)
  | .stpD v v2 n off => some (s.storeHalves v v2 (s.base n + offset off))
  | .ldpD v v2 n off => if v = v2 then none else some (s.loadHalves v v2 (s.base n + offset off))
  | .addImm d n imm => some (s.setBase d (s.base n + imm.toUInt64))
  | .subImm d n imm => some (s.setBase d (s.base n - imm.toUInt64))
  | .subsImm d n imm =>
    some { s.setReg d (s.base n - imm.toUInt64) with zf := s.base n == imm.toUInt64 }
  | .movSp d n => some (s.setBase d (s.base n))
  | .add d n m => some (s.setReg d (s.reg n + s.reg m))
  | .sub d n m => some (s.setReg d (s.reg n - s.reg m))
  | .mul d n m => some (s.setReg d (s.reg n * s.reg m))
  | .mov d m => some (s.setReg d (s.reg m))
  | .lslImm d n shift => some (s.setReg d (s.reg n <<< shift.toUInt64))
  | .movz d imm shift => some (s.setReg d (imm.toUInt64 <<< shift.toUInt64))
  | .movk d imm shift =>
    some (s.setReg d (s.reg d &&& ~~~((0xFFFF : UInt64) <<< shift.toUInt64) |||
      imm.toUInt64 <<< shift.toUInt64))
  | .ldr t n off => some (s.setReg t (s.mem.read64 (s.base n + offset off)))
  | .str t n off => some { s with mem := s.mem.write64 (s.base n + offset off) (s.reg t) }
  | .ldrQ v n off => some (s.setVec v (s.lanesAt (s.base n + offset off) 4))
  | .strQ v n off =>
    some { s with mem := s.mem.writeWords (s.base n + offset off) 4 (s.lanes v) }
  | _ => none

theorem exec_canonical (i : Instr) : s.exec i.canonical = s.exec i := by
  cases i with
  | movSp d n => simp [Instr.canonical, exec]
  | _ => rfl

end Machine

-- ---------------------------------------------------------------------------
-- Steps
-- ---------------------------------------------------------------------------

/-- Where a run is: at an offset of the code, or back at a return address. -/
inductive Config where
  | at (offset : Nat) (s : Machine)
  | left (address : UInt64) (s : Machine)

/-- A branch counts from its own first byte. One that lands before the code, or anywhere after its
end, has nothing to go on with. -/
def target? (offset : Nat) (distance : Int) : Option Nat :=
  let target := offset + distance
  if 0 ≤ target then some target.toNat else none

/-- A branch that is taken or passed. -/
def branchTo (offset : Nat) (distance : Int) (taken : Bool) (s : Machine) : Option Config :=
  if taken then (target? offset distance).map (.at · s) else some (.at (offset + 4) s)

/-- Decodes and carries out the instruction at the current offset. -/
def Config.step? (code : List UInt8) : Config → Option Config
  | .left .. => none
  | .at offset s => do
    match ← decode (code.drop offset) with
    | .plain .ret => some (.left (s.gpr .lr) s)
    | .plain i => (s.exec i).map (.at (offset + 4))
    | .b distance => branchTo offset distance true s
    | .bCond cc distance => branchTo offset distance (s.zf == (cc == .eq)) s
    | .cbz t distance => branchTo offset distance (s.reg t == 0) s
    | .cbnz t distance => branchTo offset distance (s.reg t != 0) s

inductive Runs (code : List UInt8) : Config → Config → Prop where
  | refl (c : Config) : Runs code c c
  | step {a b c : Config} (h : a.step? code = some b) (hr : Runs code b c) : Runs code a c

-- ---------------------------------------------------------------------------
-- Blocks
-- ---------------------------------------------------------------------------

def Machine.block (s : Machine) : List Instr → Option Machine
  | [] => some s
  | i :: is => (s.exec i).bind fun s => s.block is

theorem Machine.block_append {is js : List Instr} {s t u : Machine} (h : s.block is = some t)
    (h' : t.block js = some u) : s.block (is ++ js) = some u := by
  induction is generalizing s with
  | nil =>
    obtain rfl := Option.some.inj h
    exact h'
  | cons i is ih =>
    obtain ⟨s', hs, ht⟩ := Option.bind_eq_some_iff.mp h
    simp [Machine.block, hs, ih ht]

def blockBytes (is : List Instr) : List UInt8 := is.flatMap (·.chunk.bytes)

section

variable (pre post : List UInt8)

theorem step_instr {i : Instr} (hi : i.Decodes) {s s' : Machine} (h : s.exec i = some s') :
    Config.step? (pre ++ i.chunk.bytes ++ post) (.at pre.length s) =
      some (.at (pre.length + i.chunk.bytes.length) s') := by
  have hdrop : (pre ++ i.chunk.bytes ++ post).drop pre.length = i.chunk.bytes ++ post := by simp
  rw [← s.exec_canonical] at h
  have hret : i.canonical ≠ .ret := by
    rintro hret
    rw [hret] at h
    cases h
  simp only [Config.step?, hdrop, hi.decode, hi.length, Option.bind_eq_bind, Option.bind_some, h]
  rfl

theorem runs_block {is : List Instr} (his : ∀ i ∈ is, i.Decodes) {s s' : Machine}
    (h : s.block is = some s') :
    Runs (pre ++ blockBytes is ++ post) (.at pre.length s)
      (.at (pre.length + (blockBytes is).length) s') := by
  induction is generalizing pre s with
  | nil =>
    obtain rfl := Option.some.inj h
    exact .refl _
  | cons i is ih =>
    obtain ⟨t, ht, hrest⟩ := Option.bind_eq_some_iff.mp h
    have hstep := step_instr pre (blockBytes is ++ post) (his _ List.mem_cons_self) ht
    have hruns := ih (pre ++ i.chunk.bytes) (fun i hi => his i (List.mem_cons_of_mem _ hi)) hrest
    simp only [blockBytes, List.flatMap_cons, List.append_assoc, List.length_append,
      Nat.add_assoc] at hstep hruns ⊢
    exact .step hstep hruns

theorem step_ret (s : Machine) :
    Config.step? (pre ++ Instr.ret.chunk.bytes ++ post) (.at pre.length s) =
      some (.left (s.gpr .lr) s) := by
  have hdrop : (pre ++ Instr.ret.chunk.bytes ++ post).drop pre.length =
      Instr.ret.chunk.bytes ++ post := by simp
  have hret : Instr.ret.Decodes := by decide
  simp only [Config.step?, hdrop, hret.decode, Option.bind_eq_bind, Option.bind_some]
  rfl

end

end JitGemm.Arm64
