import JitGemm.Proofs.Gemm.BlockedFloat
import JitGemm.Proofs.Gemm.BlockedInt
import JitGemm.Proofs.Gemm.Requests

/-!
# What the routes make of an accepted call

Each route ends well on an accepted call and overwrites the block, for a reference kernel also
where the block is empty or there are no steps. Tiles are for calls with work to do: there are none
of no steps.
-/

namespace JitGemm

/-- An accepted call, with a word for the width of its panels. -/
structure Outline.Admitted (o : Outline) (check : Outline → Except GemmError Unit) : Prop where
  fits : o.Addressable
  accepted : check o = .ok ()
  wide : o.shape.ldc * tileCols < Size.modulus

-- ---------------------------------------------------------------------------
-- Empty blocks
-- ---------------------------------------------------------------------------

/-- Work that goes column by column does nothing to an empty block. -/
theorem Outline.Accepted.run_empty {o : Outline} (h : o.Accepted)
    (hempty : ¬ (0 < o.shape.m ∧ 0 < o.shape.n)) (team : Work.Team) {γ : Type} {c : Array γ}
    {column : Nat → Panel → Run γ Unit}
    (hrows : o.shape.m = 0 → ∀ j panel, column j panel = pure ()) (f : Nat → Nat → γ → γ) :
    (Run.overPanels team o.shape.ldc 1 o.shape.n column).run c =
      .ok () (o.shape.overwrite f (fun _ _ => true) c) := by
  have hsame : o.shape.overwrite f (fun _ _ => true) c = c :=
    GemmShape.overwrite_none fun i hi j hj => absurd ⟨by omega, by omega⟩ hempty
  have hwidth : Size.wrap (o.shape.ldc * 1) = o.shape.ldc := by
    rw [Nat.mul_one, Size.wrap_of_lt h.fits.ldc]
  have hpos := h.ldcPos
  rw [hsame, Run.overPanels, Run.run_bind_ok (EStateM.run_get c)]
  simp only [Panel.split?, hwidth, if_neg (by omega : ¬ o.shape.ldc = 0)]
  refine Run.run_forM (S := fun _ => c) fun i hi => ?_
  split
  · rename_i panel hpanel
    by_cases hm : o.shape.m = 0
    · rw [hrows hm]
      rfl
    · -- without columns there is no panel
      have hn : o.shape.n = 0 := by omega
      simp [hn, Size.ceilDiv] at hpanel
  · rfl

-- ---------------------------------------------------------------------------
-- Real products
-- ---------------------------------------------------------------------------

namespace Request

section

variable {α A : Type} (ar : Arith α) {q : Request α A A} {elem : ElemType} {c : Array α}

theorem run_reference (hfit : (q.outline ar elem elem .f32 c.size).Addressable)
    (hcheck : (q.outline ar elem elem .f32 c.size).check = .ok ())
    (widen : A → α) (team : Work.Team) :
    let a := q.floatA elem widen
    let b := q.floatB elem widen
    (Reference.float ar team q a b).run c =
      .ok () (q.shape.overwrite (Reference.floatValue ar a b q.shape.k q.alpha q.beta q.bias)
        (fun _ _ => true) c) := by
  intro a b
  have haccepted := Outline.accepted_of_check hfit hcheck
  by_cases hblock : 0 < q.shape.m ∧ 0 < q.shape.n
  · obtain ⟨hready, hbias⟩ := ready ar widen hfit hcheck hblock
    exact Reference.run_float ar hready (fun xs hxs => (hbias xs hxs).1) team
  · refine haccepted.run_empty hblock team (fun (hm : q.shape.m = 0) j panel => ?_) _
    rw [hm]
    rfl

theorem run_biasPass (hfit : (q.outline ar elem elem .f32 c.size).Addressable)
    (hcheck : (q.outline ar elem elem .f32 c.size).check = .ok ())
    {bias : Array α} (hbias : q.bias = some bias) (team : Work.Team) {c' : Array α}
    (hsize : c'.size = c.size) :
    (Reference.addBias ar team q.shape bias).run c' =
      .ok () (q.shape.overwrite (fun i _ old => ar.add old (bias.getD i ar.zero))
        (fun _ _ => true) c') := by
  have haccepted := Outline.accepted_of_check hfit hcheck
  by_cases hblock : 0 < q.shape.m ∧ 0 < q.shape.n
  · have hlength := (haccepted.bias bias.size (by simp [outline, hbias])).1
    exact Reference.run_addBias ar (hsize ▸ haccepted.holds hblock) hlength team
  · refine haccepted.run_empty hblock team (fun (hm : q.shape.m = 0) j panel => ?_) _
    rw [hm, Nat.zero_min]
    rfl

theorem run_tiles (h : (q.outline ar elem elem .f32 c.size).Admitted Outline.check)
    (hwork : q.shape.degenerate = false) (widen : A → α) {rows : Nat} (hrows : 0 < rows)
    (hpack : q.shape.Packable rows) (fused : Bool) (team : Work.Team) :
    let a := q.floatA elem widen
    let b := q.floatB elem widen
    (Blocked.float ar team fused rows q a b).run c =
      .ok () (q.shape.overwrite (Blocked.floatValue ar fused a b q.shape.k q.alpha q.beta q.bias)
        (fun _ _ => true) c) := by
  intro a b
  obtain ⟨hready, hbias⟩ := ready ar widen h.fits h.accepted (GemmShape.block_of_work hwork)
  exact Blocked.run_float ar hready (fun xs hxs => (hbias xs hxs).1)
    (GemmShape.steps_of_work hwork) (.inl h.wide) hrows hpack fused team

end

-- ---------------------------------------------------------------------------
-- Quantized products
-- ---------------------------------------------------------------------------

section

variable {α B : Type} (ar : Arith α) {q : Request α Int8 B} (kind : IntKind B) {c : Array Int32}

theorem run_intReference (hfit : (q.outline ar .s8 kind.elem .s32 c.size).Addressable)
    (hcheck : (q.outline ar .s8 kind.elem .s32 c.size).checkQuantized = .ok ())
    (team : Work.Team) :
    let a := q.intA
    let b := q.intB kind
    (Reference.int ar team q a b).run c =
      .ok () (q.shape.overwrite (Reference.intValue ar a b q.shape.k q.alpha q.beta q.offset)
        (fun _ _ => true) c) := by
  intro a b
  have haccepted := (Outline.accepted_of_checkQuantized hfit hcheck).1
  by_cases hblock : 0 < q.shape.m ∧ 0 < q.shape.n
  · obtain ⟨hready, hoffset⟩ := readyQuantized ar hfit hcheck hblock
    exact Reference.run_int ar hready hoffset team
  · refine haccepted.run_empty hblock team (fun (hm : q.shape.m = 0) j panel => ?_) _
    rw [hm]
    rfl

theorem run_intTiles
    (h : (q.outline ar .s8 kind.elem .s32 c.size).Admitted Outline.checkQuantized)
    (hwork : q.shape.degenerate = false) {rows : Nat} (hrows : 0 < rows)
    (hpack : q.shape.Packable rows) (shift : Int32) (team : Work.Team) :
    let a := q.intA
    let b := q.intB kind
    (Blocked.int ar team rows shift q a b).run c =
      .ok () (q.shape.overwrite (Reference.intValue ar a b q.shape.k q.alpha q.beta q.offset)
        (fun _ _ => true) c) := by
  intro a b
  obtain ⟨hready, hoffset⟩ :=
    readyQuantized ar h.fits h.accepted (GemmShape.block_of_work hwork)
  exact Blocked.run_int ar hready hoffset (GemmShape.steps_of_work hwork) (.inl h.wide) hrows hpack
    shift team

end

end Request

end JitGemm
