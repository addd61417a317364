import Mathlib.Tactic.Ring
import JitGemm.Proofs.Gemm.BlockedFloat
import JitGemm.Proofs.Gemm.Requests

/-!
# Tiles and the reference kernel on real products

Without a native multiply-add the tiles and the reference kernel do the same operations in the same
order, so they agree under every reading of these operations. With one they differ by the rounding
that it leaves out, and agree where nothing is rounded.
-/

namespace JitGemm

/-- The operations are those of a commutative ring. -/
structure Arith.Exact {α : Type} [CommRing α] (ar : Arith α) : Prop where
  zero : ar.zero = 0
  mul : ∀ x y, ar.mul x y = x * y
  add : ∀ x y, ar.add x y = x + y
  fma : ∀ x y z, ar.fma x y z = x * y + z

-- ---------------------------------------------------------------------------
-- Values
-- ---------------------------------------------------------------------------

section

variable {α : Type} (ar : Arith α) {a b : Operand α} {k i j : Nat} {alpha beta old : α}
  {bias : Option (Array α)}

theorem Blocked.sumValue_unfused : sumValue ar false a b k i j = Reference.dotValue ar a b k i j :=
  rfl

/-- Only the factors of alpha trade places. -/
theorem Blocked.floatValue_unfused (hmul : ∀ x y, ar.mul x y = ar.mul y x)
    (hbias : bias.isSome = true → ar.isZero beta = true) :
    floatValue ar false a b k alpha beta bias i j old =
      Reference.floatValue ar a b k alpha beta bias i j old := by
  rw [floatValue, Reference.floatValue, sumValue_unfused, hmul alpha]
  cases bias with
  | none => rfl
  | some xs =>
    simp only [Tile.floatFinish, hbias rfl, if_true]
    rfl

theorem Blocked.floatValue_exact [CommRing α] (h : ar.Exact) (fused : Bool)
    (hbias : bias.isSome = true → ar.isZero beta = true) :
    floatValue ar fused a b k alpha beta bias i j old =
      Reference.floatValue ar a b k alpha beta bias i j old := by
  cases fused with
  | false => exact floatValue_unfused ar (fun x y => by rw [h.mul, h.mul, mul_comm]) hbias
  | true =>
    have hstep (x y z : α) : Tile.mulAdd ar true x y z = ar.add z (ar.mul x y) := by
      rw [Tile.mulAdd, if_pos rfl, h.fma, h.add, h.mul]
      ring
    have hsum : sumValue ar true a b k i j = Reference.dotValue ar a b k i j := by
      simp only [sumValue, hstep]
      rfl
    rw [floatValue, Reference.floatValue, hsum]
    simp only [Tile.floatFinish, hstep, h.mul alpha, h.mul _ alpha, mul_comm alpha]
    cases bias with
    | none => rfl
    | some xs =>
      simp only [hbias rfl, if_true]
      rfl

end

-- ---------------------------------------------------------------------------
-- Calls
-- ---------------------------------------------------------------------------

section

variable {α A : Type} (ar : Arith α) {q : Request α A A} (elem : ElemType) (widen : A → α)
  {c : Array α}

/-- Tiles of any height for which the operands can be packed, by any team, give every element of C
the value of the tile kernel's expression, whole tiles and edges alike, and leave the rest of C
alone. So they end in the C of the reference kernel without a native multiply-add, and with one
wherever nothing is rounded. -/
theorem Blocked.float_agrees (hfit : (q.outline ar elem elem .f32 c.size).Addressable)
    (hcheck : (q.outline ar elem elem .f32 c.size).check = .ok ())
    (hwork : q.shape.degenerate = false) (hw : q.shape.ldc * tileCols < Size.modulus)
    (rows : Nat) (hrows : 0 < rows) (hpack : q.shape.Packable rows) (fused : Bool)
    (team : Work.Team) :
    let a := q.floatA elem widen
    let b := q.floatB elem widen
    let s := q.shape
    ∃ c', (float ar team fused rows q a b).run c = .ok () c' ∧
      (∀ i < s.m, ∀ j < s.n, s.element? c' i j =
        (s.element? c i j).map (floatValue ar fused a b s.k q.alpha q.beta q.bias i j)) ∧
      s.SameOutside c' c ∧
      (fused = false → (∀ x y, ar.mul x y = ar.mul y x) →
        ∀ team', (Reference.float ar team' q a b).run c = .ok () c') ∧
      (∀ [CommRing α], ar.Exact →
        ∀ team', (Reference.float ar team' q a b).run c = .ok () c') := by
  intro a b s
  obtain ⟨hready, hbias⟩ := Request.ready ar widen hfit hcheck (GemmShape.block_of_work hwork)
  have hlength : ∀ xs, q.bias = some xs → q.shape.m ≤ xs.size := fun xs hxs => (hbias xs hxs).1
  have hzero : q.bias.isSome = true → ar.isZero q.beta = true := by
    intro hsome
    obtain ⟨xs, hxs⟩ := Option.isSome_iff_exists.mp hsome
    exact (hbias xs hxs).2
  have hreference (team' : Work.Team) := Reference.run_float ar hready hlength team'
  have hk := GemmShape.steps_of_work hwork
  refine ⟨_, run_float ar hready hlength hk (.inl hw) hrows hpack fused team,
    fun i hi j hj => GemmShape.element?_overwrite hready.holds.rows hi hj,
    GemmShape.overwrite_sameOutside, ?_, ?_⟩
  · rintro rfl hmul team'
    rw [hreference]
    congr 2
    funext i j old
    exact (floatValue_unfused ar hmul hzero).symm
  · intro _ hexact team'
    rw [hreference]
    congr 2
    funext i j old
    exact (floatValue_exact ar hexact fused hzero).symm

end

/-- The integers, which round nothing. -/
def Arith.integers : Arith Int where
  zero := 0
  mul := (· * ·)
  add := (· + ·)
  fma := fun x y z => x * y + z
  isZero := (· == 0)
  ofBf16 := fun _ => 0
  quantize := fun sum _ _ _ _ => sum
  text := toString

theorem Arith.integers_exact : integers.Exact :=
  ⟨rfl, fun _ _ => rfl, fun _ _ => rfl, fun _ _ _ => rfl⟩

/-- A result of 17 x 5, so with an edge below and an edge to the right, in columns of 20. -/
def edgeRequest : Request Int Int Int where
  shape := { GemmShape.tight .trans .noTrans 17 5 2 with ldc := 20 }
  a := Array.replicate 34 3
  b := Array.replicate 10 (-2)
  alpha := 2
  beta := 5

theorem edgeRequest_agrees :
    ∃ c', (Blocked.float .integers .serial true 16 edgeRequest (edgeRequest.floatA .f32 id)
        (edgeRequest.floatB .f32 id)).run (Array.replicate 97 1) = .ok () c' ∧
      (Reference.float .integers .serial edgeRequest (edgeRequest.floatA .f32 id)
        (edgeRequest.floatB .f32 id)).run (Array.replicate 97 1) = .ok () c' := by
  obtain ⟨c', hrun, -, -, -, hexact⟩ := Blocked.float_agrees .integers .f32 id
    (q := edgeRequest) (c := Array.replicate 97 1) (by constructor <;> decide) rfl rfl (by decide)
    16 (by decide) (by constructor <;> decide) true .serial
  exact ⟨c', hrun, hexact Arith.integers_exact .serial⟩

end JitGemm
