import JitGemm.Proofs.Dispatch.Settled

/-!
# A bias around a library call

The library works on a request without its bias, and the bias is added to what it leaves in C. When
the library computes what the reference kernel computes, C ends as the reference kernel leaves it on
the whole request: there is no beta beside a bias, so the bias comes last either way. When the
library fails nothing is added. A request that is kept off the library may end otherwise, for
generated kernels round as they are generated to.
-/

namespace JitGemm

/-- Overwriting twice is overwriting once with both changes. -/
theorem GemmShape.overwrite_twice {γ : Type} (s : GemmShape) (f g : Nat → Nat → γ → γ)
    (c : Array γ) :
    s.overwrite g (fun _ _ => true) (s.overwrite f (fun _ _ => true) c) =
      s.overwrite (fun i j old => g i j (f i j old)) (fun _ _ => true) c := by
  apply Array.ext
  · simp
  · intro x _ _
    simp only [overwrite, Array.getElem_mapIdx]
    split <;> rfl

namespace Request

variable {α A B : Type}

/-- The request as the library has it. -/
def lent (q : Request α A B) : Request α A B := { q with bias := none }

/-- What an element comes to with the bias is what it comes to without, plus the bias of its row. -/
theorem floatValue_lent (ar : Arith α) (q : Request α A B) {bias : Array α}
    (hbias : q.bias = some bias) (a b : Operand α) :
    Reference.floatValue ar a b q.shape.k q.alpha q.beta q.bias = fun i j old =>
      ar.add (Reference.floatValue ar a b q.shape.k q.alpha q.beta q.lent.bias i j old)
        (bias.getD i ar.zero) := by
  rw [hbias]
  rfl

end Request

namespace Dispatcher

variable {α : Type} (ar : Arith α) {d : Dispatcher α} {v : Vendor α} {q : Request α α α}
  {bias c c' : Array α}

-- ---------------------------------------------------------------------------
-- The library and the pass after it
-- ---------------------------------------------------------------------------

theorem vendorSgemm_ok (hbias : q.bias = some bias) {c'' : Array α}
    (hlent : (v.sgemm q.lent).run c = .ok (.ok ()) c')
    (hpass : (Reference.addBias ar d.team q.shape bias).run c' = .ok () c'') :
    let r := d.vendorSgemm ar v q c
    r.outcome = .routed .vendor ∧ r.c = c'' ∧ r.request = q := by
  have hlent : (v.sgemm { q with bias := none }).run c = .ok (.ok ()) c' := hlent
  simp only [vendorSgemm, finishVendor, Run.run_bind_ok hlent, hbias, Run.run_bind_ok hpass]
  exact ⟨rfl, rfl, hbias ▸ rfl⟩

theorem vendorSgemm_error {e : GemmError} (hlent : (v.sgemm q.lent).run c = .ok (.error e) c') :
    let r := d.vendorSgemm ar v q c
    r.outcome = .refused e ∧ r.c = c' ∧ r.request = q := by
  have hlent : (v.sgemm { q with bias := none }).run c = .ok (.error e) c' := hlent
  simp only [vendorSgemm, finishVendor, Run.run_bind_ok hlent]
  exact ⟨rfl, rfl, rfl⟩

-- ---------------------------------------------------------------------------
-- Requests that come back
-- ---------------------------------------------------------------------------

section

variable {A B γ : Type}

@[simp] theorem finish_request (d : Dispatcher α) (q : Request α A B) (c : Array γ)
    (route : Decision) (run : Run γ Unit) : (d.finish q c route run).request = q := by
  rw [finish]
  split <;> rfl

@[simp] theorem finishVendor_request (d : Dispatcher α) (q : Request α A B) (c : Array γ)
    (run : Run γ (Except GemmError Unit)) : (d.finishVendor q c run).request = q := by
  rw [finishVendor]
  split <;> rfl

theorem runFloat_request (d : Dispatcher α) (isa : Isa) (q : Request α A B) (a b : Operand α)
    (c : Array α) : (d.runFloat ar isa q a b c).request = q := by
  simp only [runFloat]
  split <;> simp

end

/-- The caller has the request back as it was, with its bias. -/
theorem sgemm_request (d : Dispatcher α) (q : Request α α α) (c : Array α) :
    (d.sgemm ar q c).request = q := by
  simp only [sgemm, guarded]
  split
  · rfl
  · split
    · rfl
    · split
      · simp [vendorSgemm]
      · exact runFloat_request ar d _ q _ _ c
      · simp

-- ---------------------------------------------------------------------------
-- Calls
-- ---------------------------------------------------------------------------

/-- An accepted call with work to do goes to the library, unless it is kept off. -/
theorem sgemm_lends (hv : d.vendor = some v) (hroute : q.forceNocopy = false)
    (hcheck : (q.outline ar .f32 .f32 .f32 c.size).check = .ok ())
    (hwork : q.shape.degenerate = false) : d.sgemm ar q c = d.vendorSgemm ar v q c := by
  rw [sgemm, guarded_ok hcheck hwork]
  simp [Decision.sgemm, hv, hroute]

/-- The reference kernel on the whole request does what it does on the request without the bias,
and then the pass that adds the bias; teams make no difference to either. -/
theorem two_passes (hbias : q.bias = some bias)
    (hfit : (q.outline ar .f32 .f32 .f32 c.size).Addressable)
    (hcheck : (q.outline ar .f32 .f32 .f32 c.size).check = .ok ())
    (hwork : q.shape.degenerate = false) :
    ∃ c' c'', (∀ team, (Reference.sgemm ar team q.lent).run c = .ok () c') ∧
      (∀ team, (Reference.addBias ar team q.shape bias).run c' = .ok () c'') ∧
      ∀ team, (Reference.sgemm ar team q).run c = .ok () c'' := by
  let plain := Reference.floatValue ar (q.floatA .f32 id) (q.floatB .f32 id) q.shape.k q.alpha
    q.beta q.lent.bias
  let added (i _ : Nat) (old : α) : α := ar.add old (bias.getD i ar.zero)
  obtain ⟨hready, -⟩ := Request.ready ar id hfit hcheck (GemmShape.block_of_work hwork)
  refine ⟨q.shape.overwrite plain (fun _ _ => true) c,
    q.shape.overwrite added (fun _ _ => true) (q.shape.overwrite plain (fun _ _ => true) c),
    fun team => ?_, fun team => ?_, fun team => ?_⟩
  · exact Reference.run_float ar (q := q.lent) hready nofun team
  · exact Request.run_biasPass ar hfit hcheck hbias team GemmShape.size_overwrite
  · have hwhole := Request.run_reference ar hfit hcheck id team
    rw [GemmShape.overwrite_twice]
    simp only [Request.floatValue_lent ar q hbias] at hwhole
    exact hwhole

/-- What a library runs that computes by the reference kernel. -/
def onReference (team : Work.Team) (q : Request α α α) : Run α (Except GemmError Unit) := do
  Reference.sgemm ar team q
  return .ok ()

/-- An accepted call with a bias and work to do, on a dispatcher with a library. The request comes
back with its bias. Unless it keeps off the library, C ends as the reference kernel leaves it on the
whole request, by any team, if the library makes of the request without the bias what the reference
kernel makes of it; and if the library fails, so does the call, with C as the library left it. -/
theorem lent_bias_added (hv : d.vendor = some v) (hbias : q.bias = some bias)
    (hfit : (q.outline ar .f32 .f32 .f32 c.size).Addressable)
    (hcheck : (q.outline ar .f32 .f32 .f32 c.size).check = .ok ())
    (hwork : q.shape.degenerate = false) :
    let r := d.sgemm ar q c
    ar.isZero q.beta = true ∧ r.request = q ∧
      (q.forceNocopy = false →
        (∀ team, (v.sgemm q.lent).run c = (onReference ar team q.lent).run c →
          r.outcome = .routed .vendor ∧
            ∀ team', (Reference.sgemm ar team' q).run c = .ok () r.c) ∧
        ∀ e c', (v.sgemm q.lent).run c = .ok (.error e) c' →
          r.outcome = .refused e ∧ r.c = c') := by
  intro r
  obtain ⟨-, hzero⟩ := Request.ready ar id hfit hcheck (GemmShape.block_of_work hwork)
  refine ⟨(hzero bias hbias).2, sgemm_request ar d q c, fun hroute => ?_⟩
  have hr : r = d.vendorSgemm ar v q c := sgemm_lends ar hv hroute hcheck hwork
  rw [hr]
  constructor
  · intro team hlibrary
    obtain ⟨c', c'', hlent, hpass, hwhole⟩ := two_passes ar hbias hfit hcheck hwork
    obtain ⟨houtcome, hc, -⟩ := vendorSgemm_ok ar (d := d) hbias
      (hlibrary.trans (Run.run_bind_ok (hlent team))) (hpass d.team)
    exact ⟨houtcome, fun team' => hc ▸ hwhole team'⟩
  · intro e c' hlent
    obtain ⟨houtcome, hc, -⟩ := vendorSgemm_error ar (d := d) hlent
    exact ⟨houtcome, hc⟩

/-- A product of 2 x 2 in columns of 3, with a bias for three rows. -/
def biasedCall : Request Single Single Single where
  shape := { GemmShape.tight .noTrans .trans 2 2 1 with ldc := 3 }
  a := #[.one, ⟨0x40000000⟩]
  b := #[⟨0x40400000⟩, ⟨0xC0000000⟩]
  alpha := .one
  beta := .zero
  bias := some #[⟨0x3F000000⟩, .one, .one]

/-- A library that writes to C and then fails. -/
def failingVendor : Vendor Single where
  name := "failing"
  sgemm := fun _ => do
    Run.write 0 .zero
    return .error (.unimplemented (.stated "vendor sgemm"))

theorem biasedCall_lent :
    let host : Dispatcher Single := build ⟨.full, some .sysV, 4⟩ {} {} .serial
    let c := Array.replicate 6 Single.one
    let done := (host.withVendor (some (.ofReference Single.arith "plain" false))).sgemm
      Single.arith biasedCall c
    let failed := (host.withVendor (some failingVendor)).sgemm Single.arith biasedCall c
    (Reference.sgemm Single.arith .serial biasedCall).run c = .ok () done.c ∧
      failed.outcome = .refused (.unimplemented (.stated "vendor sgemm")) ∧
      failed.c = c.set! 0 .zero := by
  intro host c done failed
  have hfit : (biasedCall.outline Single.arith .f32 .f32 .f32 c.size).Addressable := by
    constructor <;> decide
  obtain ⟨-, -, hdone⟩ := lent_bias_added Single.arith (c := c)
    (d := host.withVendor (some (.ofReference Single.arith "plain" false))) rfl rfl hfit rfl rfl
  obtain ⟨-, -, hfailed⟩ := lent_bias_added Single.arith (c := c)
    (d := host.withVendor (some failingVendor)) rfl rfl hfit rfl rfl
  obtain ⟨houtcome, hc⟩ := (hfailed rfl).2 _ _ rfl
  exact ⟨((hdone rfl).1 .serial rfl).2 .serial, houtcome, hc⟩

/-- A product of two steps that is kept off the library. The second step rounds differently once and
twice. -/
def nocopyCall : Request Single Single Single where
  shape := .tight .noTrans .noTrans 1 1 2
  a := #[⟨0x3F800000⟩, ⟨0x3F800800⟩]
  b := #[⟨0xBF800000⟩, ⟨0x3F800800⟩]
  alpha := .one
  beta := .zero
  bias := some #[⟨0x3E800000⟩]
  forceNocopy := true

/-- A dispatcher that is left multiply-add instructions but no wider registers, with a library that
computes as the reference kernel does. -/
def libraryDispatcher : Dispatcher Single :=
  ((build ⟨.full, some .sysV, 4⟩ {} {} .serial).withCapabilities
    (.ofList [.sse41, .avx, .avx2, .fma])).withVendor
    (some (.ofReference Single.arith "plain" false))

/-- Kept off that library, the call is served by a kernel that rounds a multiply-add once. -/
theorem nocopyCall_fused :
    (Reference.sgemm Single.arith .serial nocopyCall).run #[.zero] = .ok () #[⟨0x3E804000⟩] ∧
      (libraryDispatcher.sgemm Single.arith nocopyCall #[.zero]).outcome =
        .routed (.generated .avx) ∧
      (libraryDispatcher.sgemm Single.arith nocopyCall #[.zero]).c = #[⟨0x3E804002⟩] := by
  refine ⟨rfl, ?_⟩
  decide +kernel

end Dispatcher

end JitGemm
