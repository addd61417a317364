import JitGemm.Proofs.Dispatch.KernelCache
import JitGemm.Proofs.Gemm.LogicalOperands

/-!
# Calls see the logical operands only

Two calls for the same product take the same way through two dispatchers with the same settings, and
every way gives both the same block. Teams and kept kernels make no difference, nor does anything
that the requests store beside their operands.
-/

namespace JitGemm

-- ---------------------------------------------------------------------------
-- Courses that agree
-- ---------------------------------------------------------------------------

section

variable {γ : Type}

/-- The same outcome, which is no fault, and the same block of C if a route was taken or C had it
before. -/
structure SameResult (s s' : GemmShape) (c c' : Array γ) (x x' : Outcome × Array γ) : Prop where
  outcome : x'.1 = x.1
  ends : ∀ f, x.1 ≠ .stopped f
  block : (∃ route, x.1 = .routed route) ∨ s.SameBlock s' c c' → s.SameBlock s' x.2 x'.2

/-- Courses that go the same way, over runs that agree. -/
inductive Course.Agree (s s' : GemmShape) (c c' : Array γ) : Course γ → Course γ → Prop where
  | degenerate : Agree s s' c c' (.atOnce .degenerate) (.atOnce .degenerate)
  | refused (e : GemmError) : Agree s s' c c' (.atOnce (.refused e)) (.atOnce (.refused e))
  | plain {run run' : Run γ Unit} (h : Run.AgreeOn s s' c c' run run') :
    Agree s s' c c' (.plain run) (.plain run')
  | tiled {key : TileKey} {route : Decision} {tiles tiles' : CachedKernel → Run γ Unit}
    {reference reference' : Run γ Unit} (htiles : ∀ k, Run.AgreeOn s s' c c' (tiles k) (tiles' k))
    (hreference : Run.AgreeOn s s' c c' reference reference') :
    Agree s s' c c' (.tiled key route tiles reference) (.tiled key route tiles' reference')

variable {s s' : GemmShape} {c c' : Array γ}

theorem Run.AgreeOn.ended {run run' : Run γ Unit} (h : AgreeOn s s' c c' run run')
    (route : Decision) : SameResult s s' c c' (ended route run c) (ended route run' c') := by
  obtain ⟨d, d', hrun, hrun', hblock⟩ := h
  simp only [JitGemm.ended, hrun, hrun']
  exact ⟨rfl, by simp, fun _ => hblock⟩

theorem SameResult.atOnce {o : Outcome} (hends : ∀ f, o ≠ .stopped f)
    (hroute : ∀ route, o ≠ .routed route) : SameResult s s' c c' (o, c) (o, c') where
  outcome := rfl
  ends := hends
  block := by
    rintro (⟨route, h⟩ | h)
    · exact absurd h (hroute route)
    · exact h

theorem Course.Agree.reply {course course' : Course γ} (h : Agree s s' c c' course course')
    (generated? : TileKey → Option CachedKernel) :
    SameResult s s' c c' (course.reply generated? c) (course'.reply generated? c') := by
  cases h with
  | degenerate => exact .atOnce (by simp) (by simp)
  | refused e => exact .atOnce (by simp) (by simp)
  | plain h => exact h.ended _
  | @tiled key route tiles tiles' _ _ htiles hreference =>
    simp only [Course.reply]
    cases generated? key with
    | some k => exact (htiles k).ended _
    | none => exact hreference.ended _

end

/-- Both calls pass validation, and there is work to do in both or in neither. -/
theorem Request.Interchangeable.guarded {α A B γ : Type} {ar : Arith α} {q q' : Request α A B}
    {elemA elemB elemC : ElemType} {check : Outline → Except GemmError Unit} {c c' : Array γ}
    (h : q.Interchangeable ar q' elemA elemB elemC check c c') {course course' : Course γ}
    (hcourse : q.shape.degenerate = false → Course.Agree q.shape q'.shape c c' course course') :
    Course.Agree q.shape q'.shape c c'
      (.guarded (check (q.outline ar elemA elemB elemC c.size)) q.shape.degenerate course)
      (.guarded (check (q'.outline ar elemA elemB elemC c'.size)) q'.shape.degenerate course') := by
  rw [h.first.accepted, h.second.accepted, h.same.degenerate]
  cases hwork : q.shape.degenerate with
  | true => exact .degenerate
  | false => exact hcourse hwork

namespace Dispatcher

variable {α B : Type} {ar : Arith α}

/-- Two dispatchers without vendor library that differ in their teams, kept kernels and journals
only. -/
structure RouteAlike (d d' : Dispatcher α) : Prop where
  caps : d'.caps = d.caps
  target : d'.target = d.target
  capacity : d'.policy.capacity = d.policy.capacity
  vendor : d.vendor = none
  vendor' : d'.vendor = none
  valid : d.Valid
  valid' : d'.Valid

variable {d d' : Dispatcher α}

theorem RouteAlike.jit (h : d.RouteAlike d') : d'.jit = d.jit := by
  rw [Dispatcher.jit, Dispatcher.jit, h.target]

section

variable {A : Type} {q q' : Request α A A} {elem : ElemType} {c c' : Array α}

theorem floatCourse_agree
    (h : q.Interchangeable ar q' elem elem .f32 Outline.check c c')
    (hwork : q.shape.degenerate = false) (hpack : ∀ key : TileKey, q.shape.Packable key.rows)
    (widen : A → α) (isa : Isa) :
    Course.Agree q.shape q'.shape c c'
      (d.floatCourse ar isa q (q.floatA elem widen) (q.floatB elem widen))
      (d'.floatCourse ar isa q' (q'.floatA elem widen) (q'.floatB elem widen)) := by
  obtain ⟨hreference, htiles⟩ := h.float_agree widen d.team d'.team
  -- both calls ask for the kernel of one key
  have hm : 0 < q.shape.m := (GemmShape.block_of_work hwork).1
  have hbias : q'.bias.isSome = q.bias.isSome := by
    simpa using congrArg Option.isSome (h.same.bias 0 hm)
  rw [floatCourse, floatCourse, h.same.beta, hbias]
  exact .tiled (fun k => htiles hwork _ _ _ (TileKey.rows_pos _) (TileKey.rows_pos _) (hpack _)
    (hpack _)) hreference

end

theorem sgemmCourse_agree {q q' : Request α α α} {c c' : Array α} (hd : d.RouteAlike d')
    (h : q.Interchangeable ar q' .f32 .f32 .f32 Outline.check c c')
    (hpack : ∀ key : TileKey, q.shape.Packable key.rows) :
    Course.Agree q.shape q'.shape c c' (d.sgemmCourse ar q c.size)
      (d'.sgemmCourse ar q' c'.size) := by
  have hdecision : Decision.sgemm d'.caps d'.jit false q'.forceNocopy =
      Decision.sgemm d.caps d.jit false q.forceNocopy := by
    rw [hd.caps, hd.jit]
    rfl
  refine h.guarded fun hwork => ?_
  rw [hdecision]
  cases Decision.sgemm d.caps d.jit false q.forceNocopy with
  | generated isa => exact floatCourse_agree h hwork hpack id isa
  | vendor | simplified isa | reference => exact .plain (h.float_agree id d.team d'.team).1

theorem bf16Course_agree {q q' : Request α BFloat16 BFloat16} {c c' : Array α}
    (hd : d.RouteAlike d') (h : q.Interchangeable ar q' .bf16 .bf16 .f32 Outline.check c c')
    (hpack : ∀ key : TileKey, q.shape.Packable key.rows) :
    Course.Agree q.shape q'.shape c c' (d.bf16Course ar q c.size)
      (d'.bf16Course ar q' c'.size) := by
  refine h.guarded fun hwork => ?_
  rw [hd.caps, hd.jit]
  cases Decision.bf16? d.caps d.jit with
  | none => exact .refused _
  | some decision =>
    cases decision with
    | generated isa => exact floatCourse_agree h hwork hpack ar.ofBf16 isa
    | vendor | simplified isa | reference => exact .refused _

theorem igemmCourse_agree {q q' : Request α Int8 B} {kind : IntKind B} {c c' : Array Int32}
    (hd : d.RouteAlike d') (hdiscards : ar.DiscardsOld)
    (h : q.Interchangeable ar q' .s8 kind.elem .s32 Outline.checkQuantized c c')
    (hpack : ∀ key : TileKey, q.shape.Packable key.rows) :
    Course.Agree q.shape q'.shape c c' (d.igemmCourse ar kind q c.size)
      (d'.igemmCourse ar kind q' c'.size) := by
  obtain ⟨hplain, htiles⟩ := h.int_agree hdiscards d.team d'.team
  have hdecision : Decision.igemm d'.caps d'.jit q'.shape.m q'.shape.n q'.zeroPoints =
      Decision.igemm d.caps d.jit q.shape.m q.shape.n q.zeroPoints := by
    rw [hd.caps, hd.jit, h.same.m, h.same.n, h.same.zeroPoints]
  refine h.guarded fun hwork => ?_
  rw [hdecision]
  have htiled (isa : Isa) (shift : Int32) :=
    htiles hwork _ _ shift shift (TileKey.int isa).rows_pos (TileKey.int isa).rows_pos (hpack _)
      (hpack _)
  cases Decision.igemm d.caps d.jit q.shape.m q.shape.n q.zeroPoints with
  | generated isa => exact .tiled (fun _ => htiled isa 0) hplain
  | simplified isa => exact .tiled (fun _ => htiled isa kind.shift) hplain
  | vendor | reference => exact .plain hplain

-- ---------------------------------------------------------------------------
-- Calls
-- ---------------------------------------------------------------------------

/-- Answers to two requests, on `c` and `c'`, with the same outcome and block. -/
def Answer.Alike {A γ : Type} (q q' : Request α A B) (c c' : Array γ) (r r' : Answer α A B γ) :
    Prop :=
  SameResult q.shape q'.shape c c' (r.outcome, r.c) (r'.outcome, r'.c)

theorem RouteAlike.answer {A γ : Type} (hd : d.RouteAlike d') {q q' : Request α A B}
    {c c' : Array γ} {course course' : Course γ}
    (h : Course.Agree q.shape q'.shape c c' course course') :
    Answer.Alike q q' c c' (course.answer d q c) (course'.answer d' q' c') := by
  have hreply := h.reply d.generated?
  have hgenerated := generated?_congr hd.caps hd.target hd.capacity
  rw [Answer.Alike, Course.answer, Course.answer, hgenerated]
  exact hreply

/-- Accepted calls for the same product end in the same block of C, whatever their storage and
teams, on every route and however a dispatcher comes to it, if tiles can be packed for the product.
A call that takes no route, as there is nothing to do or a capability missing, takes none for the
other request either and keeps C. A quantized element needs for this that its rounding leaves the
old value alone where beta is zero, as it does in single precision. -/
theorem outputs_logical (ar : Arith α) :
    (∀ {A : Type} (q q' : Request α A A) (elem : ElemType) (widen : A → α) (c c' : Array α),
      q.Interchangeable ar q' elem elem .f32 Outline.check c c' → ∀ team team',
        let a := q.floatA elem widen
        let b := q.floatB elem widen
        let a' := q'.floatA elem widen
        let b' := q'.floatB elem widen
        Run.AgreeOn q.shape q'.shape c c' (Reference.float ar team q a b)
            (Reference.float ar team' q' a' b') ∧
          (q.shape.degenerate = false → ∀ fused rows rows', 0 < rows → 0 < rows' →
            q.shape.Packable rows → q.shape.Packable rows' →
            Run.AgreeOn q.shape q'.shape c c' (Blocked.float ar team fused rows q a b)
              (Blocked.float ar team' fused rows' q' a' b'))) ∧
    (ar.DiscardsOld → ∀ {B : Type} (q q' : Request α Int8 B) (kind : IntKind B)
      (c c' : Array Int32),
      q.Interchangeable ar q' .s8 kind.elem .s32 Outline.checkQuantized c c' → ∀ team team',
        let a := q.intA
        let b := q.intB kind
        let a' := q'.intA
        let b' := q'.intB kind
        Run.AgreeOn q.shape q'.shape c c' (Reference.int ar team q a b)
            (Reference.int ar team' q' a' b') ∧
          (q.shape.degenerate = false → ∀ rows rows' shift shift', 0 < rows → 0 < rows' →
            q.shape.Packable rows → q.shape.Packable rows' →
            Run.AgreeOn q.shape q'.shape c c' (Blocked.int ar team rows shift q a b)
              (Blocked.int ar team' rows' shift' q' a' b'))) ∧
    (∀ d d' : Dispatcher α, d.RouteAlike d' →
      (∀ q q' c c', q.Interchangeable ar q' .f32 .f32 .f32 Outline.check c c' →
        (∀ key : TileKey, q.shape.Packable key.rows) →
        Answer.Alike q q' c c' (d.sgemm ar q c) (d'.sgemm ar q' c')) ∧
      (∀ q q' c c', q.Interchangeable ar q' .bf16 .bf16 .f32 Outline.check c c' →
        (∀ key : TileKey, q.shape.Packable key.rows) →
        Answer.Alike q q' c c' (d.bf16 ar q c) (d'.bf16 ar q' c')) ∧
      (ar.DiscardsOld → ∀ {B : Type} (e : Quantized α B) (q q' : Request α Int8 B) c c',
        q.Interchangeable ar q' .s8 e.kind.elem .s32 Outline.checkQuantized c c' →
        (∀ key : TileKey, q.shape.Packable key.rows) →
          Answer.Alike q q' c c' (d.igemm ar e q c) (d'.igemm ar e q' c'))) ∧
    Single.arith.DiscardsOld := by
  refine ⟨?_, ?_, fun d d' hd => ⟨?_, ?_, ?_⟩, Single.arith_discardsOld⟩
  · exact fun q q' elem widen c c' h team team' => h.float_agree widen team team'
  · exact fun hdiscards _ q q' kind c c' h team team' => h.int_agree hdiscards team team'
  · intro q q' c c' h hpack
    rw [sgemm_answer hd.valid hd.vendor, sgemm_answer hd.valid' hd.vendor']
    exact hd.answer (sgemmCourse_agree hd h hpack)
  · intro q q' c c' h hpack
    rw [bf16_answer hd.valid, bf16_answer hd.valid']
    exact hd.answer (bf16Course_agree hd h hpack)
  · intro hdiscards B e q q' c c' h hpack
    rw [igemm_answer hd.valid hd.vendor, igemm_answer hd.valid' hd.vendor']
    exact hd.answer (igemmCourse_agree hd hdiscards h hpack)

/-- A 2 x 3 product, stored without gaps. -/
def plainProduct : Request Single Single Single where
  shape := .tight .noTrans .noTrans 2 3 2
  a := #[⟨0x3F800000⟩, ⟨0x40400000⟩, ⟨0x40000000⟩, ⟨0x40800000⟩]
  b := #[⟨0x3F800000⟩, ⟨0x40000000⟩, ⟨0x40400000⟩, ⟨0x40800000⟩, ⟨0x3F800000⟩, ⟨0x40000000⟩]
  alpha := .one
  beta := ⟨0x80000000⟩

/-- The same product with both operands transposed, infinities between their columns and after
them, and a C with gaps. -/
def paddedProduct : Request Single Single Single where
  shape := { GemmShape.tight .trans .trans 2 3 2 with lda := 3, ldb := 4, ldc := 5 }
  a := #[⟨0x3F800000⟩, ⟨0x40000000⟩, ⟨0x7F800000⟩, ⟨0x40400000⟩, ⟨0x40800000⟩, ⟨0x7F800000⟩]
  b := #[⟨0x3F800000⟩, ⟨0x40400000⟩, ⟨0x3F800000⟩, ⟨0x7F800000⟩, ⟨0x40000000⟩, ⟨0x40800000⟩,
    ⟨0x40000000⟩]
  alpha := .one
  beta := ⟨0x80000000⟩

theorem plainProduct_interchangeable :
    plainProduct.Interchangeable Single.arith paddedProduct .f32 .f32 .f32 Outline.check
      (Array.replicate 6 Single.zero) (Array.replicate 14 (⟨0x7F800000⟩ : Single)) where
  first := ⟨by constructor <;> decide, rfl, by decide⟩
  second := ⟨by constructor <;> decide, rfl, by decide⟩
  same := {
    m := rfl
    n := rfl
    k := rfl
    a := by decide
    b := by decide
    alpha := rfl
    beta := rfl
    bias := fun _ _ => rfl
    zeroPoints := rfl
    offset := fun _ _ _ _ => rfl }
  old := fun hbeta => absurd hbeta (by decide)

theorem paddedProduct_logical :
    let d : Dispatcher Single := build ⟨.full, some .sysV, 4⟩ {} {} .serial
    let d' : Dispatcher Single := build ⟨.full, some .sysV, 4⟩ {} {} { size := 3 }
    let c := Array.replicate 6 Single.zero
    let c' := Array.replicate 14 (⟨0x7F800000⟩ : Single)
    Answer.Alike plainProduct paddedProduct c c' (d.sgemm Single.arith plainProduct c)
      (d'.sgemm Single.arith paddedProduct c') := by
  intro d d' c c'
  obtain ⟨-, -, hcalls, -⟩ := outputs_logical Single.arith
  have halike : d.RouteAlike d' :=
    ⟨rfl, rfl, rfl, rfl, rfl, valid_of_no_kernels rfl, valid_of_no_kernels rfl⟩
  exact (hcalls d d' halike).1 _ _ _ _ plainProduct_interchangeable
    (GemmShape.packable_of_spare (by decide))

end Dispatcher

end JitGemm
