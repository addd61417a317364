import JitGemm.Proofs.Gemm.ReferenceResult

/-!
# Accepted requests

What validation of a request gives to the routes that work on its widened operands.
-/

namespace JitGemm

theorem Offset.reaches_of_length {offset : Option Offset} {m n : Nat}
    (h : ∀ o, offset = some o → o.mode.requiredLen m n ≤ o.values.size) :
    Offset.Reaches offset m n := by
  intro o ho i hi j hj
  have hlen := h o ho
  cases hmode : o.mode <;>
    simp only [hmode, OffsetMode.requiredLen, OffsetMode.position] at hlen ⊢ <;> omega

namespace Request

variable {α : Type} (ar : Arith α)

/-- An accepted real call with a block to write can be run, and a bias keeps beta out. -/
theorem ready {A : Type} {q : Request α A A} {elem : ElemType} (widen : A → α) {c : Array α}
    (hfit : (q.outline ar elem elem .f32 c.size).Addressable)
    (hcheck : (q.outline ar elem elem .f32 c.size).check = .ok ())
    (hblock : 0 < q.shape.m ∧ 0 < q.shape.n) :
    q.shape.Ready (q.floatA elem widen) (q.floatB elem widen) c.size ∧
      ∀ xs, q.bias = some xs → q.shape.m ≤ xs.size ∧ ar.isZero q.beta = true := by
  have haccepted := Outline.accepted_of_check hfit hcheck
  refine ⟨haccepted.ready hblock rfl rfl _ _, fun xs hxs => haccepted.bias xs.size ?_⟩
  simp [outline, hxs]

/-- An accepted quantized call with a block to write can be run. -/
theorem readyQuantized {B : Type} {q : Request α Int8 B} {kind : IntKind B} {c : Array Int32}
    (hfit : (q.outline ar .s8 kind.elem .s32 c.size).Addressable)
    (hcheck : (q.outline ar .s8 kind.elem .s32 c.size).checkQuantized = .ok ())
    (hblock : 0 < q.shape.m ∧ 0 < q.shape.n) :
    q.shape.Ready q.intA (q.intB kind) c.size ∧
      Offset.Reaches q.offset q.shape.m q.shape.n := by
  obtain ⟨haccepted, mode, length, hsome, hlength⟩ :=
    Outline.accepted_of_checkQuantized hfit hcheck
  refine ⟨haccepted.ready hblock rfl rfl _ _, Offset.reaches_of_length fun o ho => ?_⟩
  simp only [outline, ho, Option.map_some, Option.some.injEq, Prod.mk.injEq] at hsome
  obtain ⟨rfl, rfl⟩ := hsome
  exact hlength

end Request

end JitGemm
