import JitGemm.Proofs.Dispatch.Ends
import JitGemm.Proofs.Gemm.AcceptedRuns
import JitGemm.Proofs.Gemm.Confinement

/-!
# Only the block of C is written

Rows of a column past the last of the block, columns past it and the tail of a longer buffer keep
their values in every call. A vendor library is taken to respect the block; the bias that is added
after it does so of itself.
-/

namespace JitGemm

theorem Vendor.ofReference_confined {α : Type} (ar : Arith α) {q : Request α α α} {c : Array α}
    (name : String) (integer : Bool)
    (h : (q.outline ar .f32 .f32 .f32 c.size).Admitted Outline.check) :
    ((Vendor.ofReference ar name integer).sgemm q).Confined q.shape c :=
  (Run.confined_of_overwrite (Request.run_reference ar h.fits h.accepted id .serial)).bind fun _ =>
    Run.confined_pure _

-- ---------------------------------------------------------------------------
-- Calls
-- ---------------------------------------------------------------------------

namespace Dispatcher

variable {α A B γ : Type} (ar : Arith α)

theorem finish_c (d : Dispatcher α) (q : Request α A B) (c : Array γ) (route : Decision)
    (run : Run γ Unit) : (d.finish q c route run).c = run.left c := by
  rw [finish, Run.left]
  cases run.run c <;> rfl

theorem finishVendor_c (d : Dispatcher α) (q : Request α A B) (c : Array γ)
    (run : Run γ (Except GemmError Unit)) : (d.finishVendor q c run).c = run.left c := by
  rw [finishVendor, Run.left]
  cases run.run c with
  | ok result c' => cases result <;> rfl
  | error => rfl

/-- Nothing is written before validation is through and there is work to do. -/
theorem guarded_confined {d : Dispatcher α} {check : Except GemmError Unit} {q : Request α A B}
    {c : Array γ} {route : Unit → Answer α A B γ}
    (h : q.shape.degenerate = false → q.shape.Confined c (route ()).c) :
    q.shape.Confined c (d.guarded check q c route).c := by
  cases check with
  | error e => exact .refl _ _
  | ok _ =>
    cases hwork : q.shape.degenerate with
    | true =>
      simp only [guarded, hwork, if_true]
      exact .refl _ _
    | false =>
      rw [guarded_ok rfl hwork]
      exact h hwork

section

variable {q : Request α A A} {elem : ElemType} {c : Array α}

theorem tiles_confined (h : (q.outline ar elem elem .f32 c.size).Admitted Outline.check)
    (hwork : q.shape.degenerate = false) (a b : Operand α) {rows : Nat} (hrows : 0 < rows)
    (fused : Bool) (team : Work.Team) :
    (Blocked.float ar team fused rows q a b).Confined q.shape c :=
  Blocked.float_confined ar ((Outline.accepted_of_check h.fits h.accepted).holds
    (GemmShape.block_of_work hwork)) (.inl h.wide) hrows fused team

theorem runFloat_confined (d : Dispatcher α)
    (h : (q.outline ar elem elem .f32 c.size).Admitted Outline.check)
    (hwork : q.shape.degenerate = false) (widen : A → α) (isa : Isa) :
    q.shape.Confined c
      (d.runFloat ar isa q (q.floatA elem widen) (q.floatB elem widen) c).c := by
  obtain ⟨d', route, hend | ⟨fused, key, hend⟩⟩ := runFloat_cases ar d isa q
    (q.floatA elem widen) (q.floatB elem widen) c
  · rw [hend, finish_c]
    exact Run.confined_of_overwrite (Request.run_reference ar h.fits h.accepted widen d'.team)
  · rw [hend, finish_c]
    exact tiles_confined ar h hwork _ _ key.rows_pos fused d'.team

end

section

variable {q : Request α Int8 B} {kind : IntKind B} {c : Array Int32}

theorem intTiles_confined
    (h : (q.outline ar .s8 kind.elem .s32 c.size).Admitted Outline.checkQuantized)
    (hwork : q.shape.degenerate = false) (a b : Operand Int32) (rows : Nat) (shift : Int32)
    (team : Work.Team) : (Blocked.int ar team rows shift q a b).Confined q.shape c :=
  Blocked.int_confined ar ((Outline.accepted_of_checkQuantized h.fits h.accepted).1.holds
    (GemmShape.block_of_work hwork)) (.inl h.wide) shift team

theorem builtinIgemm_confined (d : Dispatcher α)
    (h : (q.outline ar .s8 kind.elem .s32 c.size).Admitted Outline.checkQuantized)
    (hwork : q.shape.degenerate = false) :
    q.shape.Confined c (d.builtinIgemm ar kind q c).c := by
  obtain ⟨d', route, hend | ⟨key, shift, hend⟩⟩ := builtinIgemm_cases ar d kind q c
  · rw [hend, finish_c]
    exact Run.confined_of_overwrite (Request.run_intReference ar kind h.fits h.accepted d'.team)
  · rw [hend, finish_c]
    exact intTiles_confined ar h hwork _ _ key.rows shift d'.team

end

/-- The bias is added to what the library left. -/
theorem vendorSgemm_confined {q : Request α α α} {c : Array α} (d : Dispatcher α) (v : Vendor α)
    (h : (q.outline ar .f32 .f32 .f32 c.size).Admitted Outline.check)
    (hvendor : (v.sgemm { q with bias := none }).Confined q.shape c) :
    q.shape.Confined c (d.vendorSgemm ar v q c).c := by
  rw [vendorSgemm, finishVendor_c]
  refine Run.Confined.bind hvendor fun result => ?_
  split
  · rename_i bias hbias
    have hrun := Request.run_biasPass ar h.fits h.accepted hbias d.team hvendor.size
    exact (Run.confined_of_overwrite hrun).bind fun _ => Run.confined_pure _
  · exact Run.confined_pure _

/-- An accepted call, with a word for the width of its panels, writes elements of the block only,
on every route and from every dispatcher. -/
theorem outside_block_kept (ar : Arith α) :
    (∀ {A : Type} (q : Request α A A) (elem : ElemType) (widen : A → α) (c : Array α),
      (q.outline ar elem elem .f32 c.size).Admitted Outline.check → ∀ team,
        let a := q.floatA elem widen
        let b := q.floatB elem widen
        (Reference.float ar team q a b).Confined q.shape c ∧
          (q.shape.degenerate = false → ∀ fused rows, 0 < rows →
            (Blocked.float ar team fused rows q a b).Confined q.shape c) ∧
          ∀ bias, q.bias = some bias →
            (Reference.addBias ar team q.shape bias).Confined q.shape c) ∧
    (∀ {B : Type} (q : Request α Int8 B) (kind : IntKind B) (c : Array Int32),
      (q.outline ar .s8 kind.elem .s32 c.size).Admitted Outline.checkQuantized → ∀ team,
        let a := q.intA
        let b := q.intB kind
        (Reference.int ar team q a b).Confined q.shape c ∧
          (q.shape.degenerate = false → ∀ rows shift, 0 < rows →
            (Blocked.int ar team rows shift q a b).Confined q.shape c)) ∧
    ∀ d : Dispatcher α,
      (∀ (q : Request α α α) c, (q.outline ar .f32 .f32 .f32 c.size).Admitted Outline.check →
        (∀ v, d.vendor = some v → (v.sgemm { q with bias := none }).Confined q.shape c) →
          q.shape.Confined c (d.sgemm ar q c).c) ∧
      (∀ (q : Request α BFloat16 BFloat16) c,
        (q.outline ar .bf16 .bf16 .f32 c.size).Admitted Outline.check →
          q.shape.Confined c (d.bf16 ar q c).c) ∧
      ∀ {B : Type} (e : Quantized α B) (q : Request α Int8 B) c,
        (q.outline ar .s8 e.kind.elem .s32 c.size).Admitted Outline.checkQuantized →
        (∀ v run, d.vendor = some v → e.vendorRun v q = some run → run.Confined q.shape c) →
          q.shape.Confined c (d.igemm ar e q c).c := by
  refine ⟨?_, ?_, fun d => ⟨?_, ?_, ?_⟩⟩
  · intro A q elem widen c h team a b
    have hreference := Request.run_reference ar h.fits h.accepted widen team
    refine ⟨Run.confined_of_overwrite hreference, ?_, ?_⟩
    · exact fun hwork fused rows hrows =>
        tiles_confined ar h hwork a b hrows fused team
    · exact fun bias hbias =>
        Run.confined_of_overwrite (Request.run_biasPass ar h.fits h.accepted hbias team rfl)
  · intro B q kind c h team a b
    refine ⟨Run.confined_of_overwrite (Request.run_intReference ar kind h.fits h.accepted team), ?_⟩
    exact fun hwork rows shift _ => intTiles_confined ar h hwork a b rows shift team
  · intro q c h hvendor
    refine guarded_confined fun hwork => ?_
    split
    · rename_i v _ hv
      exact vendorSgemm_confined ar d v h (hvendor v hv)
    · exact runFloat_confined ar d h hwork id _
    · rw [finish_c]
      exact Run.confined_of_overwrite (Request.run_reference ar h.fits h.accepted id _)
  · intro q c h
    refine guarded_confined fun hwork => ?_
    split
    · exact runFloat_confined ar d h hwork ar.ofBf16 _
    · exact .refl _ _
  · intro B e q c h hvendor
    refine guarded_confined fun hwork => ?_
    split
    · exact builtinIgemm_confined ar d h hwork
    · rename_i v hv
      simp only
      split
      · rename_i run hrun
        rw [finishVendor_c]
        exact hvendor v run hv hrun
      · exact builtinIgemm_confined ar _ h hwork

/-- A 2 x 3 product with a bias, in columns of 5. -/
def gappedCall : Request Single Single Single where
  shape := { GemmShape.tight .noTrans .noTrans 2 3 2 with ldc := 5 }
  a := Array.replicate 4 .one
  b := Array.replicate 6 .one
  alpha := .one
  beta := .zero
  bias := some #[.one, .one]

/-- Lent to a library, the call keeps a row between two columns and the tail of C. -/
theorem gappedCall_keeps :
    let v : Vendor Single := .ofReference Single.arith "library" true
    let d : Dispatcher Single := (build ⟨.full, some .sysV, 4⟩ {} {} .serial).withVendor (some v)
    let c := Array.replicate 14 (⟨0x7F800000⟩ : Single)
    let written := (d.sgemm Single.arith gappedCall c).c
    written[3]? = some ⟨0x7F800000⟩ ∧ written[13]? = some ⟨0x7F800000⟩ := by
  intro v d c written
  let lent : Request Single Single Single := { gappedCall with bias := none }
  have hlent : (lent.outline Single.arith .f32 .f32 .f32 c.size).Admitted Outline.check :=
    ⟨by constructor <;> decide, rfl, by decide⟩
  have hlibrary : (v.sgemm lent).Confined gappedCall.shape c :=
    Vendor.ofReference_confined (q := lent) (c := c) Single.arith "library" true hlent
  have hkept := ((outside_block_kept Single.arith).2.2 d).1 gappedCall c
    ⟨by constructor <;> decide, rfl, by decide⟩ fun w hw => by
      obtain rfl : v = w := Option.some.inj hw
      exact hlibrary
  exact ⟨(hkept.outside 3 (by decide)).trans rfl, (hkept.outside 13 (by decide)).trans rfl⟩

end Dispatcher

end JitGemm
