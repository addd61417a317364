import JitGemm.Proofs.Dispatch.Ends
import JitGemm.Proofs.Gemm.AcceptedRuns

/-!
# Calls without a vendor library

The built-in routes end well on an accepted call that they can pack, and overwrite its block. So
without a library no such call is stopped by a fault: it is refused before anything is written, or
its route comes to its end.
No call changes a setting of its dispatcher, so none takes the library away or gives it one.
-/

namespace JitGemm.Dispatcher

variable {α A B γ : Type}

/-- The call came to an end of its own, C has its size, and it is as before if the call was
refused. -/
structure Answer.Settled (r : Answer α A B γ) (c : Array γ) : Prop where
  ends : ∀ f, r.outcome ≠ .stopped f
  kept : ∀ e, r.outcome = .refused e → r.c = c
  size : r.c.size = c.size

theorem guarded_settled {d : Dispatcher α} {check : Except GemmError Unit} {q : Request α A B}
    {c : Array γ} {route : Unit → Answer α A B γ}
    (h : check = .ok () → q.shape.degenerate = false → (route ()).Settled c) :
    (d.guarded check q c route).Settled c := by
  cases check with
  | error e => exact ⟨by simp [guarded], fun _ _ => rfl, rfl⟩
  | ok _ =>
    cases hwork : q.shape.degenerate with
    | true =>
      simp only [guarded, hwork, if_true]
      exact ⟨by simp, by simp, rfl⟩
    | false =>
      rw [guarded_ok rfl hwork]
      exact h rfl hwork

/-- The call took its route to the end and overwrote the block. -/
def Answer.Overwrites (r : Answer α A B γ) (s : GemmShape) (c : Array γ) : Prop :=
  (∃ route, r.outcome = .routed route) ∧ ∃ f, r.c = s.overwrite f (fun _ _ => true) c

theorem Answer.Overwrites.settled {r : Answer α A B γ} {s : GemmShape} {c : Array γ}
    (h : r.Overwrites s c) : r.Settled c := by
  obtain ⟨⟨route, hroute⟩, f, hc⟩ := h
  exact ⟨by simp [hroute], by simp [hroute], by rw [hc, GemmShape.size_overwrite]⟩

theorem finish_overwrites {q : Request α A B} {c : Array γ} {run : Run γ Unit} {s : GemmShape}
    {f : Nat → Nat → γ → γ} (d : Dispatcher α) (route : Decision)
    (h : run.run c = .ok () (s.overwrite f (fun _ _ => true) c)) :
    (d.finish q c route run).Overwrites s c := by
  rw [finish_ok h]
  exact ⟨⟨route, rfl⟩, f, rfl⟩

variable (ar : Arith α)

theorem runFloat_overwrites {q : Request α A A} {elem : ElemType} {c : Array α} (d : Dispatcher α)
    (h : (q.outline ar elem elem .f32 c.size).Admitted Outline.check)
    (hwork : q.shape.degenerate = false) (hpack : ∀ key : TileKey, q.shape.Packable key.rows)
    (widen : A → α) (isa : Isa) :
    (d.runFloat ar isa q (q.floatA elem widen) (q.floatB elem widen) c).Overwrites q.shape c := by
  obtain ⟨d', route, hend | ⟨fused, key, hend⟩⟩ := runFloat_cases ar d isa q
    (q.floatA elem widen) (q.floatB elem widen) c
  · rw [hend]
    exact finish_overwrites d' route (Request.run_reference ar h.fits h.accepted widen d'.team)
  · rw [hend]
    exact finish_overwrites d' route
      (Request.run_tiles ar h hwork widen key.rows_pos (hpack key) fused d'.team)

theorem builtinIgemm_overwrites {q : Request α Int8 B} {kind : IntKind B} {c : Array Int32}
    (d : Dispatcher α)
    (h : (q.outline ar .s8 kind.elem .s32 c.size).Admitted Outline.checkQuantized)
    (hwork : q.shape.degenerate = false) (hpack : ∀ key : TileKey, q.shape.Packable key.rows) :
    (d.builtinIgemm ar kind q c).Overwrites q.shape c := by
  obtain ⟨d', route, hend | ⟨key, shift, hend⟩⟩ := builtinIgemm_cases ar d kind q c
  · rw [hend]
    exact finish_overwrites d' route (Request.run_intReference ar kind h.fits h.accepted d'.team)
  · rw [hend]
    exact finish_overwrites d' route
      (Request.run_intTiles ar kind h hwork key.rows_pos (hpack key) shift d'.team)

section

variable {d : Dispatcher α} (hvendor : d.vendor = none)

include hvendor

theorem sgemm_settled {q : Request α α α} {c : Array α}
    (hfit : (q.outline ar .f32 .f32 .f32 c.size).Addressable)
    (hwide : q.shape.ldc * tileCols < Size.modulus)
    (hpack : q.shape.degenerate = false → ∀ key : TileKey, q.shape.Packable key.rows) :
    (d.sgemm ar q c).Settled c := by
  refine guarded_settled fun hcheck hwork => ?_
  split
  · rename_i v _ hv
    exact absurd (hvendor.symm.trans hv) (by simp)
  · exact (runFloat_overwrites ar d ⟨hfit, hcheck, hwide⟩ hwork (hpack hwork) id _).settled
  · exact (finish_overwrites d _ (Request.run_reference ar hfit hcheck id d.team)).settled

theorem igemm_settled {e : Quantized α B} {q : Request α Int8 B} {c : Array Int32}
    (hfit : (q.outline ar .s8 e.kind.elem .s32 c.size).Addressable)
    (hwide : q.shape.ldc * tileCols < Size.modulus)
    (hpack : q.shape.degenerate = false → ∀ key : TileKey, q.shape.Packable key.rows) :
    (d.igemm ar e q c).Settled c := by
  refine guarded_settled fun hcheck hwork => ?_
  simp only [hvendor]
  exact (builtinIgemm_overwrites ar d ⟨hfit, hcheck, hwide⟩ hwork (hpack hwork)).settled

end

theorem bf16_settled (d : Dispatcher α) {q : Request α BFloat16 BFloat16} {c : Array α}
    (hfit : (q.outline ar .bf16 .bf16 .f32 c.size).Addressable)
    (hwide : q.shape.ldc * tileCols < Size.modulus)
    (hpack : q.shape.degenerate = false → ∀ key : TileKey, q.shape.Packable key.rows) :
    (d.bf16 ar q c).Settled c := by
  refine guarded_settled fun hcheck hwork => ?_
  split
  · exact (runFloat_overwrites ar d ⟨hfit, hcheck, hwide⟩ hwork (hpack hwork) ar.ofBf16 _).settled
  · exact ⟨by simp, fun _ _ => rfl, rfl⟩

-- ---------------------------------------------------------------------------
-- The settings of a dispatcher
-- ---------------------------------------------------------------------------

/-- The same settings. What was kept and recorded since may differ. -/
structure SameSettings (d d' : Dispatcher α) : Prop where
  host : d'.host = d.host
  caps : d'.caps = d.caps
  target : d'.target = d.target
  policy : d'.policy = d.policy
  team : d'.team = d.team
  vendor : d'.vendor = d.vendor

theorem SameSettings.refl (d : Dispatcher α) : d.SameSettings d := ⟨rfl, rfl, rfl, rfl, rfl, rfl⟩

theorem SameSettings.trans {d d' d'' : Dispatcher α} (h : d.SameSettings d')
    (h' : d'.SameSettings d'') : d.SameSettings d'' where
  host := h'.host.trans h.host
  caps := h'.caps.trans h.caps
  target := h'.target.trans h.target
  policy := h'.policy.trans h.policy
  team := h'.team.trans h.team
  vendor := h'.vendor.trans h.vendor

theorem kernel?_settings {d d' : Dispatcher α} {key : TileKey} {k : Option CachedKernel}
    (h : d.kernel? key = (k, d')) : d.SameSettings d' := by
  rw [kernel?] at h
  split at h
  · cases h
    exact .refl d
  · split at h
    · cases h
      exact .refl d
    · simp only at h
      split at h <;> cases h <;> exact ⟨rfl, rfl, rfl, rfl, rfl, rfl⟩

@[simp] theorem finish_dispatcher (d : Dispatcher α) (q : Request α A B) (c : Array γ)
    (route : Decision) (run : Run γ Unit) : (d.finish q c route run).dispatcher = d := by
  rw [finish]
  split <;> rfl

@[simp] theorem finishVendor_dispatcher (d : Dispatcher α) (q : Request α A B) (c : Array γ)
    (run : Run γ (Except GemmError Unit)) : (d.finishVendor q c run).dispatcher = d := by
  rw [finishVendor]
  split <;> rfl

theorem guarded_settings {d : Dispatcher α} {check : Except GemmError Unit} {q : Request α A B}
    {c : Array γ} {route : Unit → Answer α A B γ} (h : d.SameSettings (route ()).dispatcher) :
    d.SameSettings (d.guarded check q c route).dispatcher := by
  simp only [guarded]
  split
  · exact .refl d
  · split
    · exact .refl d
    · exact h

theorem runFloat_settings (d : Dispatcher α) (isa : Isa) (q : Request α A B) (a b : Operand α)
    (c : Array α) : d.SameSettings (d.runFloat ar isa q a b c).dispatcher := by
  simp only [runFloat]
  split <;> (rename_i hkernel; simpa using kernel?_settings hkernel)

theorem builtinIgemm_settings (d : Dispatcher α) (kind : IntKind B) (q : Request α Int8 B)
    (c : Array Int32) : d.SameSettings (d.builtinIgemm ar kind q c).dispatcher := by
  simp only [builtinIgemm]
  split
  · split <;> (rename_i hkernel; simpa using kernel?_settings hkernel)
  · split <;> (rename_i hkernel; simpa using kernel?_settings hkernel)
  · simpa using SameSettings.refl d

theorem recorded_settings (d : Dispatcher α) (calls : List VendorCall) :
    d.SameSettings { d with vendorCalls := calls } := ⟨rfl, rfl, rfl, rfl, rfl, rfl⟩

theorem sgemm_settings (d : Dispatcher α) (q : Request α α α) (c : Array α) :
    d.SameSettings (d.sgemm ar q c).dispatcher := by
  refine guarded_settings ?_
  split
  · simpa [vendorSgemm] using d.recorded_settings _
  · exact runFloat_settings ar d _ q _ _ c
  · simpa using SameSettings.refl d

theorem bf16_settings (d : Dispatcher α) (q : Request α BFloat16 BFloat16) (c : Array α) :
    d.SameSettings (d.bf16 ar q c).dispatcher := by
  refine guarded_settings ?_
  split
  · exact runFloat_settings ar d _ q _ _ c
  · exact .refl d

theorem igemm_settings (d : Dispatcher α) (e : Quantized α B) (q : Request α Int8 B)
    (c : Array Int32) : d.SameSettings (d.igemm ar e q c).dispatcher := by
  refine guarded_settings ?_
  split
  · exact builtinIgemm_settings ar d e.kind q c
  · simp only
    split
    · simpa using d.recorded_settings _
    · exact (d.recorded_settings _).trans (builtinIgemm_settings ar _ e.kind q c)

end JitGemm.Dispatcher
