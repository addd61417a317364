import JitGemm.Gemm.Arith
import JitGemm.Tile.Key

/-!
# What tile kernels compute

The value of each element of a tile, from the packed panels. A f32 kernel accumulates from the first
step on, either in one operation per step or with the product rounded on its own, and then applies
alpha, bias and beta; an i32 kernel wraps.
-/

namespace JitGemm.Tile

variable {α : Type} (ar : Arith α)

/-- `x * y + z`, with the product rounded first unless it is fused. -/
def mulAdd (fused : Bool) (x y z : α) : α :=
  if fused then ar.fma x y z else ar.add z (ar.mul x y)

/-- Sum over `k` steps of row `i` and column `j`, `rows` values of A per step. -/
def floatSum (fused : Bool) (rows k : Nat) (a b : Array α) (i j : Nat) : α :=
  (List.range k).foldl (fun acc p =>
    mulAdd ar fused (a.getD (p * rows + i) ar.zero) (b.getD (p * tileCols + j) ar.zero) acc)
    ar.zero

/-- What becomes of a sum on its way to C. A key of beta zero leaves the old value unread. -/
def floatFinish (fused betaZero : Bool) (alpha beta : α) (bias : Option α) (old sum : α) : α :=
  let scaled := ar.mul sum alpha
  let biased := bias.elim scaled (ar.add scaled)
  if betaZero then biased else mulAdd ar fused beta old biased

def intSum (rows k : Nat) (a b : Array Int32) (i j : Nat) : Int32 :=
  (List.range k).foldl (fun acc p =>
    acc + a.getD (p * rows + i) 0 * b.getD (p * tileCols + j) 0) 0

end JitGemm.Tile
