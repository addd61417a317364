import JitGemm.Proofs.Dispatch.Ends
import JitGemm.Proofs.Gemm.Runs

/-!
# Calls that fail or have nothing to do

Validation, the test for work and the test for a capability come before every effect. A call that
ends at one of them gives C, the request and the dispatcher back as they were; a refusal that comes
later is a vendor library's.
-/

namespace JitGemm

/-- The call took a route, to its end or to a fault. -/
inductive Outcome.Ran : Outcome → Prop where
  | routed (d : Decision) : Ran (.routed d)
  | stopped (f : RunFault) : Ran (.stopped f)

theorem Outcome.Ran.ne_degenerate {o : Outcome} (h : o.Ran) : o ≠ .degenerate := by
  cases h <;> simp

theorem Outcome.Ran.ne_refused {o : Outcome} (h : o.Ran) (e : GemmError) : o ≠ .refused e := by
  cases h <;> simp

namespace Dispatcher

variable {α A B γ : Type}

/-- C, the request and the dispatcher are as before; so kernels, journal and the record of library
calls are. -/
structure Answer.Unchanged (r : Answer α A B γ) (d : Dispatcher α) (q : Request α A B)
    (c : Array γ) : Prop where
  c : r.c = c
  request : r.request = q
  dispatcher : r.dispatcher = d

/-- The run of a call that is handed to the vendor library ends in the refusal `e`. -/
def LibraryRefuses (d : Dispatcher α) (lend : Vendor α → Option (Run γ (Except GemmError Unit)))
    (c : Array γ) (e : GemmError) : Prop :=
  ∃ v run c', d.vendor = some v ∧ lend v = some run ∧ run.run c = .ok (.error e) c'

/-- A single precision call is lent without its bias, where the library is its route. -/
def lendSgemm (d : Dispatcher α) (q : Request α α α) (v : Vendor α) :
    Option (Run α (Except GemmError Unit)) :=
  if Decision.sgemm d.caps d.jit d.vendor.isSome q.forceNocopy = .vendor then
    some (v.sgemm { q with bias := none })
  else none

/-- How an answer fails: without work exactly where validation passes and an extent is zero, and
with nothing changed unless the library was handed the call and refused it. -/
structure Answer.FailsClean (r : Answer α A B γ) (d : Dispatcher α)
    (check : Except GemmError Unit) (q : Request α A B) (c : Array γ)
    (lend : Vendor α → Option (Run γ (Except GemmError Unit))) : Prop where
  degenerate_iff : r.outcome = .degenerate ↔
    check = .ok () ∧ (q.shape.m = 0 ∨ q.shape.n = 0 ∨ q.shape.k = 0)
  degenerate : r.outcome = .degenerate → r.Unchanged d q c
  refused : ∀ e, r.outcome = .refused e →
    ¬ (check = .ok () ∧ q.shape.degenerate = false ∧ d.LibraryRefuses lend c e) →
      r.Unchanged d q c

-- ---------------------------------------------------------------------------
-- Behind the checks
-- ---------------------------------------------------------------------------

/-- What can come of a call once its checks are behind it. -/
inductive Answer.OnRoute (r : Answer α A B γ) (d : Dispatcher α) (q : Request α A B)
    (c : Array γ) (lend : Vendor α → Option (Run γ (Except GemmError Unit))) : Prop where
  | ran (h : r.outcome.Ran)
  | kept (e : GemmError) (h : r.outcome = .refused e) (hkept : r.Unchanged d q c)
  | library (e : GemmError) (h : r.outcome = .refused e) (hlibrary : d.LibraryRefuses lend c e)

/-- Before its route a call has changed nothing. -/
theorem guarded_failsClean {d : Dispatcher α} {check : Except GemmError Unit}
    {q : Request α A B} {c : Array γ} {route : Unit → Answer α A B γ}
    {lend : Vendor α → Option (Run γ (Except GemmError Unit))}
    (h : (route ()).OnRoute d q c lend) :
    (d.guarded check q c route).FailsClean d check q c lend := by
  have hextents : q.shape.degenerate = true ↔
      q.shape.m = 0 ∨ q.shape.n = 0 ∨ q.shape.k = 0 := by
    simp [GemmShape.degenerate, or_assoc]
  cases check with
  | error e =>
    exact {
      degenerate_iff := by simp [guarded]
      degenerate := by simp [guarded]
      refused := fun _ _ _ => ⟨rfl, rfl, rfl⟩ }
  | ok _ =>
    cases hwork : q.shape.degenerate with
    | true =>
      have hend : d.guarded (.ok ()) q c route = ⟨.degenerate, c, q, d⟩ := by
        simp [guarded, hwork]
      rw [hend]
      exact {
        degenerate_iff := by simp [hextents.mp hwork]
        degenerate := fun _ => ⟨rfl, rfl, rfl⟩
        refused := by simp }
    | false =>
      have hnone : ¬ (q.shape.m = 0 ∨ q.shape.n = 0 ∨ q.shape.k = 0) := by
        rw [← hextents, hwork]
        exact Bool.false_ne_true
      -- no route ends for lack of work, so the outcome tells the two apart
      have hne : (route ()).outcome ≠ .degenerate := by
        cases h with
        | ran h => exact h.ne_degenerate
        | kept e h | library e h =>
          simp [h]
      rw [guarded_ok rfl hwork]
      refine ⟨⟨fun h => absurd h hne, fun h => absurd h.2 hnone⟩, fun h => absurd h hne, ?_⟩
      intro e he hlibrary
      cases h with
      | ran h => exact absurd he (h.ne_refused e)
      | kept _ _ hkept => exact hkept
      | library e' h hrefuses =>
        obtain rfl : e' = e := Outcome.refused.inj (h.symm.trans he)
        exact absurd ⟨rfl, hwork, hrefuses⟩ hlibrary

-- ---------------------------------------------------------------------------
-- Routes
-- ---------------------------------------------------------------------------

/-- Only the library can refuse a call on a route. -/
theorem finish_ran (d : Dispatcher α) (q : Request α A B) (c : Array γ) (route : Decision)
    (run : Run γ Unit) : (d.finish q c route run).outcome.Ran := by
  rw [finish]
  cases run.run c with
  | ok => exact .routed _
  | error => exact .stopped _

variable (ar : Arith α)

theorem runFloat_ran (d : Dispatcher α) (isa : Isa) (q : Request α A B) (a b : Operand α)
    (c : Array α) : (d.runFloat ar isa q a b c).outcome.Ran := by
  obtain ⟨d', route, hend | ⟨fused, key, hend⟩⟩ := runFloat_cases ar d isa q a b c <;>
    exact hend ▸ finish_ran d' q c route _

theorem builtinIgemm_ran (d : Dispatcher α) (kind : IntKind B) (q : Request α Int8 B)
    (c : Array Int32) : (d.builtinIgemm ar kind q c).outcome.Ran := by
  obtain ⟨d', route, hend | ⟨key, shift, hend⟩⟩ := builtinIgemm_cases ar d kind q c <;>
    exact hend ▸ finish_ran d' q c route _

section

variable {d : Dispatcher α} {lend : Vendor α → Option (Run γ (Except GemmError Unit))}

theorem finishVendor_onRoute {q : Request α A B} {c : Array γ} {v : Vendor α}
    {run lent : Run γ (Except GemmError Unit)} (hv : d.vendor = some v)
    (hlend : lend v = some lent)
    (hrun : ∀ e c', run.run c = .ok (.error e) c' → ∃ c', lent.run c = .ok (.error e) c')
    (d' : Dispatcher α) (q' : Request α A B) :
    (d'.finishVendor q' c run).OnRoute d q c lend := by
  rw [finishVendor]
  split
  · exact .ran (.routed _)
  · rename_i e c' h
    obtain ⟨c', hlent⟩ := hrun e c' h
    exact .library e rfl ⟨v, lent, c', hv, hlend, hlent⟩
  · exact .ran (.stopped _)

end

/-- A refusal of the whole is one of the library: the bias pass only follows its success. -/
theorem vendorSgemm_onRoute {d : Dispatcher α} {v : Vendor α} {q : Request α α α}
    (hv : d.vendor = some v)
    (hroute : Decision.sgemm d.caps d.jit d.vendor.isSome q.forceNocopy = .vendor)
    (c : Array α) : (d.vendorSgemm ar v q c).OnRoute d q c (d.lendSgemm q) := by
  refine finishVendor_onRoute hv (if_pos hroute) (fun e c' h => ?_) _ _
  obtain ⟨result, c₁, hlent, hrest⟩ := Run.run_bind_eq_ok.mp h
  cases result with
  | error e' =>
    cases hrest
    exact ⟨_, hlent⟩
  | ok u =>
    cases hbias : q.bias with
    | none =>
      rw [hbias] at hrest
      cases hrest
    | some bias =>
      rw [hbias] at hrest
      obtain ⟨_, _, _, hpure⟩ := Run.run_bind_eq_ok.mp hrest
      cases hpure

-- ---------------------------------------------------------------------------
-- Calls
-- ---------------------------------------------------------------------------

theorem igemm_failsClean (d : Dispatcher α) (e : Quantized α B) (q : Request α Int8 B)
    (c : Array Int32) :
    (d.igemm ar e q c).FailsClean d
      (q.outline ar .s8 e.kind.elem .s32 c.size).checkQuantized q c fun v => e.vendorRun v q := by
  refine guarded_failsClean ?_
  split
  · exact .ran (builtinIgemm_ran ar d _ q c)
  · rename_i v hv
    simp only
    split
    · rename_i run hrun
      exact finishVendor_onRoute hv hrun (fun _ c' h => ⟨c', h⟩) _ q
    · exact .ran (builtinIgemm_ran ar _ _ q c)

/-- From every dispatcher, a call has no work exactly if it is accepted and an extent is zero, and
such a call, like one refused by anything but the library, leaves everything as it was. -/
theorem failed_calls_keep (d : Dispatcher α) :
    (∀ (q : Request α α α) (c : Array α), (d.sgemm ar q c).FailsClean d
      (q.outline ar .f32 .f32 .f32 c.size).check q c (d.lendSgemm q)) ∧
    (∀ (q : Request α BFloat16 BFloat16) (c : Array α), (d.bf16 ar q c).FailsClean d
      (q.outline ar .bf16 .bf16 .f32 c.size).check q c fun _ => none) ∧
    (∀ (q : Request α Int8 UInt8) (c : Array Int32), (d.s8u8 ar q c).FailsClean d
      (q.outline ar .s8 .u8 .s32 c.size).checkQuantized q c fun v => v.s8u8 q) ∧
    ∀ (q : Request α Int8 Int8) (c : Array Int32), (d.s8s8 ar q c).FailsClean d
      (q.outline ar .s8 .s8 .s32 c.size).checkQuantized q c fun v => v.s8s8 q := by
  refine ⟨fun q c => guarded_failsClean ?_, fun q c => guarded_failsClean ?_,
    igemm_failsClean ar d unsignedB, igemm_failsClean ar d signedB⟩
  · split
    · rename_i v hroute hv
      exact vendorSgemm_onRoute ar hv hroute c
    · exact .ran (runFloat_ran ar d _ q _ _ c)
    · exact .ran (finish_ran d q c _ _)
  · split
    · exact .ran (runFloat_ran ar d _ q _ _ c)
    · exact .kept _ rfl ⟨rfl, rfl, rfl⟩

/-- A bfloat16 product of no steps. -/
def noSteps : Request Single BFloat16 BFloat16 where
  shape := .tight .noTrans .noTrans 2 3 0
  a := #[]
  b := #[]
  alpha := .one
  beta := .zero

/-- It has no work, also where the extension that bfloat16 calls need is missing. -/
theorem noSteps_unchanged :
    let d : Dispatcher Single :=
      (build ⟨.full, some .sysV, 4⟩ {} {} .serial).withCapabilities (IsaSet.full.withCeiling .avx2)
    let c := Array.replicate 6 Single.one
    Decision.bf16? d.caps d.jit = none ∧ (d.bf16 Single.arith noSteps c).outcome = .degenerate ∧
      (d.bf16 Single.arith noSteps c).Unchanged d noSteps c := by
  intro d c
  obtain ⟨-, hbf16, -⟩ := failed_calls_keep Single.arith d
  have hend := (hbf16 noSteps c).degenerate_iff.mpr ⟨rfl, by decide⟩
  exact ⟨by decide, hend, (hbf16 noSteps c).degenerate hend⟩

end Dispatcher

end JitGemm
