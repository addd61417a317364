import JitGemm.Proofs.Dispatch.Sequences
import JitGemm.Proofs.Dispatch.Settled

/-!
# The capability set of a dispatcher

The ceiling of a configuration limits the set that a dispatcher starts with. A set that is passed
later is cut down to the host and to nothing else: the last one decides, and neither the ceiling nor
the sets before it have a say any more. Calls change nothing, and routes keep to the set there is.
-/

namespace JitGemm

-- ---------------------------------------------------------------------------
-- Sets
-- ---------------------------------------------------------------------------

namespace IsaSet

def Within (s t : IsaSet) : Prop := ∀ i, s.contains i → t.contains i

theorem contains_upTo (top i : Isa) : (upTo top).contains i = i.within top := by
  cases top <;> cases i <;> rfl

theorem contains_withCeiling {s : IsaSet} {top i : Isa} :
    (s.withCeiling top).contains i ↔ s.contains i ∧ i.within top := by
  rw [withCeiling, contains_inter, contains_upTo, Bool.and_eq_true]

theorem inter_within_right (s t : IsaSet) : (s.inter t).Within t := by
  intro i hi
  rw [contains_inter, Bool.and_eq_true] at hi
  exact hi.2

end IsaSet

-- ---------------------------------------------------------------------------
-- Routes
-- ---------------------------------------------------------------------------

/-- Whether a route has its extension, where it has one, in the set. -/
def Decision.Within (caps : IsaSet) : Decision → Prop
  | generated i | simplified i => caps.contains i
  | vendor | reference => True

namespace Decision

variable (caps : IsaSet) (jit : Bool)

theorem sgemm_within (hasVendor forceNocopy : Bool) :
    (Decision.sgemm caps jit hasVendor forceNocopy).Within caps := by
  unfold sgemm
  split
  · trivial
  · split
    · rename_i h
      exact ((Bool.and_eq_true _ _).mp h).2
    · split
      · rename_i h
        exact ((Bool.and_eq_true _ _).mp h).2
      · trivial

theorem igemm_within (m n : Nat) (z : ZeroPoints) :
    (Decision.igemm caps jit m n z).Within caps := by
  unfold igemm
  split
  · rename_i h
    simp only [Bool.and_eq_true] at h
    exact h.1.2
  · split
    · rename_i h
      simp only [Bool.and_eq_true] at h
      exact h.2
    · trivial

theorem bf16?_within {route : Decision} (h : Decision.bf16? caps jit = some route) :
    route.Within caps := by
  unfold bf16? at h
  split at h
  · rename_i hcore
    cases h
    exact ((Bool.and_eq_true _ _).mp hcore).2
  · cases h

end Decision

/-- Whether the route that was taken, if one was, has its extension in the set. -/
def Outcome.Within (caps : IsaSet) (o : Outcome) : Prop :=
  ∀ route, o = .routed route → route.Within caps

namespace Dispatcher

section

variable {α A B γ : Type} {caps : IsaSet}

theorem finish_within {route : Decision} (h : route.Within caps) (d : Dispatcher α)
    (q : Request α A B) (c : Array γ) (run : Run γ Unit) :
    (d.finish q c route run).outcome.Within caps := by
  intro taken htaken
  rw [finish] at htaken
  split at htaken
  · cases htaken
    exact h
  · cases htaken

theorem reference_within (d : Dispatcher α) (q : Request α A B) (c : Array γ) (run : Run γ Unit) :
    (d.finish q c .reference run).outcome.Within caps :=
  finish_within (show Decision.reference.Within caps from trivial) d q c run

theorem finishVendor_within (d : Dispatcher α) (q : Request α A B) (c : Array γ)
    (run : Run γ (Except GemmError Unit)) : (d.finishVendor q c run).outcome.Within caps := by
  intro taken htaken
  rw [finishVendor] at htaken
  split at htaken <;> cases htaken
  trivial

theorem guarded_within {d : Dispatcher α} {check : Except GemmError Unit} {q : Request α A B}
    {c : Array γ} {route : Unit → Answer α A B γ} (h : (route ()).outcome.Within caps) :
    (d.guarded check q c route).outcome.Within caps := by
  simp only [guarded]
  split
  · rintro _ ⟨⟩
  · split
    · rintro _ ⟨⟩
    · exact h

variable (ar : Arith α) (d : Dispatcher α)

/-- Without a kernel the reference kernel takes over. -/
theorem runFloat_within {isa : Isa} (h : caps.contains isa) (q : Request α A B) (a b : Operand α)
    (c : Array α) : (d.runFloat ar isa q a b c).outcome.Within caps := by
  simp only [runFloat]
  split
  · exact finish_within (show (Decision.generated isa).Within caps from h) _ q c _
  · exact reference_within _ q c _

theorem builtinIgemm_within (kind : IntKind B) (q : Request α Int8 B) (c : Array Int32) :
    (d.builtinIgemm ar kind q c).outcome.Within d.caps := by
  have hdecision := Decision.igemm_within d.caps d.jit q.shape.m q.shape.n q.zeroPoints
  simp only [builtinIgemm]
  split
  · split
    · exact finish_within hdecision _ q c _
    · exact reference_within _ q c _
  · split
    · exact finish_within hdecision _ q c _
    · exact reference_within _ q c _
  · exact reference_within d q c _

theorem sgemm_within (q : Request α α α) (c : Array α) :
    (d.sgemm ar q c).outcome.Within d.caps := by
  have hdecision := Decision.sgemm_within d.caps d.jit d.vendor.isSome q.forceNocopy
  refine guarded_within ?_
  split
  · exact finishVendor_within _ _ c _
  · rename_i isa hroute
    rw [hroute] at hdecision
    exact runFloat_within ar d hdecision q _ _ c
  · exact reference_within d q c _

theorem bf16_within (q : Request α BFloat16 BFloat16) (c : Array α) :
    (d.bf16 ar q c).outcome.Within d.caps := by
  refine guarded_within ?_
  split
  · rename_i isa hroute
    exact runFloat_within ar d (Decision.bf16?_within d.caps d.jit hroute) q _ _ c
  · rintro _ ⟨⟩

theorem igemm_within (e : Quantized α B) (q : Request α Int8 B) (c : Array Int32) :
    (d.igemm ar e q c).outcome.Within d.caps := by
  refine guarded_within ?_
  split
  · exact builtinIgemm_within ar d e.kind q c
  · simp only
    split
    · exact finishVendor_within _ q c _
    · exact builtinIgemm_within ar { d with vendorCalls := _ } e.kind q c

/-- Every call keeps to the set of its dispatcher. -/
theorem serve_within (j : Job α) : (d.serve ar j).1.outcome.Within d.caps := by
  cases j with
  | sgemm q c => exact sgemm_within ar d q c
  | bf16 q c => exact bf16_within ar d q c
  | s8u8 q c => exact igemm_within ar d unsignedB q c
  | s8s8 q c => exact igemm_within ar d signedB q c

-- ---------------------------------------------------------------------------
-- Calls
-- ---------------------------------------------------------------------------

theorem serve_settings (j : Job α) : d.SameSettings (d.serve ar j).2 := by
  cases j with
  | sgemm q c => exact sgemm_settings ar d q c
  | bf16 q c => exact bf16_settings ar d q c
  | s8u8 q c => exact igemm_settings ar d unsignedB q c
  | s8s8 q c => exact igemm_settings ar d signedB q c

theorem after_caps (uses : List (Use α)) : (d.after ar uses).caps = d.caps := by
  induction uses generalizing d with
  | nil => rfl
  | cons u uses ih =>
    have hrest : ((d.use ar u).after ar uses).caps = (d.use ar u).caps := ih _
    refine hrest.trans ?_
    cases u with
    | job j => exact (serve_settings ar d j).caps
    | dumping on => rfl

end

end Dispatcher

-- ---------------------------------------------------------------------------
-- Settings
-- ---------------------------------------------------------------------------

/-- What is set on a dispatcher before its calls. -/
inductive Setting (α : Type) where
  | capabilities (caps : IsaSet)
  | library (vendor : Option (Vendor α))

/-- The set that a setting passes. -/
def Setting.caps? {α : Type} : Setting α → Option IsaSet
  | capabilities caps => some caps
  | library _ => none

namespace Dispatcher

variable {α : Type}

def set (d : Dispatcher α) : Setting α → Dispatcher α
  | .capabilities caps => d.withCapabilities caps
  | .library vendor => d.withVendor vendor

def withSettings (d : Dispatcher α) (settings : List (Setting α)) : Dispatcher α :=
  settings.foldl set d

theorem set_caps (d : Dispatcher α) (s : Setting α) :
    (d.set s).host = d.host ∧ (d.set s).caps = s.caps?.elim d.caps (·.inter d.host.isas) := by
  cases s <;> exact ⟨rfl, rfl⟩

theorem withSettings_caps (d : Dispatcher α) (settings : List (Setting α)) :
    (d.withSettings settings).caps =
      (settings.filterMap Setting.caps?).getLast?.elim d.caps (·.inter d.host.isas) := by
  induction settings generalizing d with
  | nil => rfl
  | cons s settings ih =>
    obtain ⟨hhost, hcaps⟩ := d.set_caps s
    have hrest : ((d.set s).withSettings settings).caps =
        (settings.filterMap Setting.caps?).getLast?.elim (d.set s).caps
          (·.inter (d.set s).host.isas) := ih _
    refine hrest.trans ?_
    rw [hhost, hcaps]
    cases hs : s.caps? with
    | none => simp [hs]
    | some caps =>
      rw [List.filterMap_cons_some hs, List.getLast?_cons]
      cases (settings.filterMap Setting.caps?).getLast? <;> rfl

/-- What a dispatcher starts with: the extensions of the host that its ceiling allows. -/
theorem contains_build {host : Host} {config : Config} {dump : DumpPolicy} {team : Work.Team}
    {i : Isa} : (build (α := α) host config dump team).caps.contains i ↔
      host.isas.contains i ∧ ∀ top, config.maxIsa = some top → i.within top := by
  cases htop : config.maxIsa with
  | none => simp [build, htop]
  | some top => simp [build, htop, IsaSet.contains_withCeiling]

/-- Whatever is set on a new dispatcher and however it is used, its capability set is the last one
that was passed, as far as the host has it, or else what the ceiling leaves of the host. It is never
more than the host has, and no call takes a route outside it. It is bounded by the ceiling and by
every set that was passed exactly where the last of them is, as far as the host has it. -/
theorem capabilities_of_settings (ar : Arith α) (host : Host) (config : Config) (dump : DumpPolicy)
    (team : Work.Team) (settings : List (Setting α)) (uses : List (Use α)) :
    let start : Dispatcher α := build host config dump team
    let d := (start.withSettings settings).after ar uses
    let passed := settings.filterMap Setting.caps?
    (∀ i, start.caps.contains i ↔
        host.isas.contains i ∧ ∀ top, config.maxIsa = some top → i.within top) ∧
      d.caps = passed.getLast?.elim start.caps (·.inter host.isas) ∧
      d.caps.Within host.isas ∧
      (∀ j, (d.serve ar j).1.outcome.Within d.caps) ∧
      ((∀ s ∈ start.caps :: passed, d.caps.Within s) ↔
        ∀ last ∈ passed.getLast?, ∀ s ∈ start.caps :: passed, (last.inter host.isas).Within s) := by
  intro start d passed
  have hstart : ∀ i, start.caps.contains i ↔ _ := fun i => contains_build
  have hcaps : d.caps = passed.getLast?.elim start.caps (·.inter host.isas) :=
    (after_caps ar _ uses).trans (start.withSettings_caps settings)
  refine ⟨hstart, hcaps, ?_, serve_within ar d, ?_⟩
  · rw [hcaps]
    cases passed.getLast? with
    | none => exact fun i hi => ((hstart i).mp hi).1
    | some last => exact last.inter_within_right host.isas
  · rw [hcaps]
    cases hlast : passed.getLast? with
    | none =>
      -- with no set passed the bound is the set itself
      rw [List.getLast?_eq_none_iff.mp hlast]
      simp [IsaSet.Within]
    | some last => simp

/-- A dispatcher that is to use nothing beyond the first extension, and is then passed four. -/
def raisedDispatcher : Dispatcher Single :=
  let all := IsaSet.ofList [.sse41, .avx, .avx2, .fma]
  (build ⟨all, some .sysV, 4⟩ { maxIsa := some .sse41 } {} .serial).withSettings [.capabilities all]

/-- It serves a call by a kernel for the second one, which the ceiling does not allow. -/
theorem raisedDispatcher_serves :
    Isa.within .avx .sse41 = false ∧ raisedDispatcher.caps.contains .avx ∧
      (raisedDispatcher.serve Single.arith realProduct).1.outcome = .routed (.generated .avx) := by
  decide +kernel

end Dispatcher

end JitGemm
