import JitGemm.Isa
import JitGemm.Target

/-!
# Tile kernels by key

A tile kernel computes a block of C that is two vector registers high and four columns wide. Its key
is everything that changes its code besides target and capability set.
-/

namespace JitGemm

inductive TileKind where
  /-- f32 with alpha, beta and bias applied at the end. -/
  | float
  /-- Wrapping i32 sums, stored as they are. -/
  | int
  deriving DecidableEq, Repr

structure TileKey where
  kind : TileKind
  isa : Isa
  betaZero : Bool
  withBias : Bool
  deriving DecidableEq, Repr

/-- Vector registers per column of a tile. -/
def tileVecs : Nat := 2

def tileCols : Nat := 4

/-- Width of the registers that an extension works on. -/
def Isa.vecLen : Isa → VecLen
  | .avx512Common | .avx512Core => .v512
  | .avx | .avx2 | .fma => .v256
  | .sse41 | .asimd => .v128

namespace TileKey

def float (isa : Isa) (betaZero withBias : Bool) : TileKey := ⟨.float, isa, betaZero, withBias⟩

def int (isa : Isa) : TileKey := ⟨.int, isa, true, false⟩

def vecLen (k : TileKey) : VecLen := k.isa.vecLen

def rows (k : TileKey) : Nat := k.vecLen.lanes * tileVecs

def name (k : TileKey) : String :=
  "gemm_" ++ (match k.kind with | .float => "f32" | .int => "s32") ++ "_" ++ k.isa.token ++
    (if k.betaZero then "_b0" else "_bn") ++ if k.withBias then "_bias" else ""

def text (k : TileKey) : String :=
  "KernelKey \x7b class: " ++ (match k.kind with | .float => "Float" | .int => "Int") ++
    ", isa: " ++ k.isa.tag ++ ", beta_zero: " ++ toString k.betaZero ++ ", with_bias: " ++
    toString k.withBias ++ " \x7d"

theorem rows_pos (k : TileKey) : 0 < k.rows := by
  rcases k with ⟨_, isa, _, _⟩
  cases isa <;> simp [rows, vecLen, Isa.vecLen, VecLen.lanes, VecLen.bytes, tileVecs]

end TileKey

end JitGemm
