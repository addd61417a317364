import JitGemm.Foreign.Session
import JitGemm.Proofs.Dispatch.Settled
import JitGemm.Proofs.Foreign.Arguments
import Mathlib.Data.List.Induction

/-!
# Sessions of foreign calls

A foreign call comes to what the dispatcher makes of the call that its arguments stand for. The
pending message is that of the last failure, until somebody asks for it.
-/

namespace JitGemm

def Outcome.error? : Outcome → Option GemmError
  | .refused e => some e
  | .routed _ | .degenerate | .stopped _ => none

namespace Foreign

/-- What a foreign caller can read of a message. -/
def visible (message : String) : String := String.ofList (message.toList.filter (· ≠ '\x00'))

/-- The buffer behind a pointer has `part` where a call worked on it, and is else as before. -/
inductive Leaves {γ : Type} : Pointer (Array γ) → Array γ → Pointer (Array γ) → Prop where
  | null : Leaves none #[] none
  | written {buffer part buffer' : Array γ} (size : buffer'.size = buffer.size)
    (elements : ∀ i : Nat, buffer'[i]? = if i < part.size then part[i]? else buffer[i]?) :
    Leaves (some buffer) part (some buffer')

-- ---------------------------------------------------------------------------
-- Single calls
-- ---------------------------------------------------------------------------

section

variable {α A B γ : Type}

abbrev Entry (α A B γ : Type) :=
  Dispatcher α → Request α A B → Array γ → Dispatcher.Answer α A B γ

/-- What a foreign call with arguments `x` and a C behind `c` comes to: `failure` is the error it
ends in, if it fails. -/
structure Refines (x : Meaning α A B γ) (s : Session α) (c : Pointer (Array γ))
    (entry : Entry α A B γ) (failure : Option GemmError) (result : Reply γ × Session α) :
    Prop where
  /-- Arguments without a wrong null are malformed or stand for a call. -/
  complete : x.missing ∨ (∃ e, x.malformed e) ∨ ∃ call, x.call call
  missing : x.missing → result.1.status = .invalidArguments
  malformed : ∀ e, x.malformed e → failure = some e
  /-- A call that the arguments stand for is answered as by the dispatcher, without a fault. -/
  answered : ∀ call, x.call call →
    let answer := entry s.dispatcher call.request call.c
    (∀ f, answer.outcome ≠ .stopped f) ∧ failure = answer.outcome.error? ∧
      Leaves c answer.c result.1.c ∧ result.2.dispatcher = answer.dispatcher
  failed : ∀ e, failure = some e →
    result.1.status = .ofError e ∧ result.2.lastError = some (visible e.message)
  succeeded : failure = none →
    result.1.status = .success ∧ result.2.lastError = s.lastError
  kept : result.1.status ≠ .success → result.1.c = c

namespace Session

def errorOf (s : Session α) (decoded : Except GemmError (Decoded α A B γ))
    (entry : Entry α A B γ) : Option GemmError :=
  match decoded with
  | .error e => some e
  | .ok call => (entry s.dispatcher call.request call.c).outcome.error?

theorem getElem?_overwrite {buffer part : Array γ} (i : Nat) :
    (overwrite buffer part)[i]? = if i < part.size then part[i]? else buffer[i]? := by
  rw [overwrite, Array.getElem?_append]
  split
  · rfl
  · rename_i hi
    rw [Array.getElem?_extract, Nat.add_sub_of_le (by omega), Nat.min_self]
    split
    · rfl
    · exact (Array.getElem?_eq_none (by omega)).symm

theorem overwrite_held {c : Pointer (Array γ)} {old : Array γ} (h : c.Holds old.size old) :
    c.map (overwrite · old) = c := by
  cases c with
  | none => rfl
  | some buffer =>
    obtain ⟨hsize, hold⟩ := h.extract rfl
    refine congrArg some (Array.ext_getElem? fun i => ?_)
    rw [getElem?_overwrite]
    split
    · rename_i hi
      rw [hold, Array.getElem?_extract, Nat.zero_add, if_pos (by omega)]
    · rfl

theorem leaves_overwrite {c : Pointer (Array γ)} {old part : Array γ}
    (h : c.Holds old.size old) (hsize : part.size = old.size) :
    Leaves c part (c.map (overwrite · part)) := by
  cases c with
  | none =>
    obtain rfl : part = #[] := Array.eq_empty_of_size_eq_zero (hsize.trans h.of_null.1)
    exact .null
  | some buffer =>
    have hfits := (h.extract rfl).1
    refine .written ?_ fun i => getElem?_overwrite i
    simp only [overwrite, Array.size_append, Array.size_extract]
    omega

theorem run_settled (s : Session α) {c : Pointer (Array γ)} {entry : Entry α A B γ}
    {call : Decoded α A B γ} (hc : c.Holds call.c.size call.c)
    (hsettled : (entry s.dispatcher call.request call.c).Settled call.c) :
    let answer := entry s.dispatcher call.request call.c
    let result := s.run c (.ok call) entry
    Leaves c answer.c result.1.c ∧ result.2.dispatcher = answer.dispatcher ∧
      (∀ e, answer.outcome.error? = some e → result.1.status = .ofError e ∧
        result.2.lastError = some (visible e.message) ∧ result.1.c = c) ∧
      (answer.outcome.error? = none →
        result.1.status = .success ∧ result.2.lastError = s.lastError) := by
  intro answer result
  have hleaves := leaves_overwrite hc hsettled.size
  let t : Session α := { s with dispatcher := answer.dispatcher }
  cases hend : answer.outcome with
  | stopped f => exact absurd hend (hsettled.ends f)
  | refused e =>
    have hkept : c.map (overwrite · answer.c) = c := by
      rw [show answer.c = call.c from hsettled.kept e hend]
      exact overwrite_held hc
    have hresult : result = t.refuse e (c.map (overwrite · answer.c)) := by
      simp only [result, run, answer] at hend ⊢
      rw [hend]
    rw [hresult]
    refine ⟨hleaves, rfl, fun e' he => ?_, fun h => absurd h (by simp [Outcome.error?])⟩
    cases he
    exact ⟨rfl, rfl, hkept⟩
  | routed _ | degenerate =>
    have hresult : result = (⟨.success, c.map (overwrite · answer.c)⟩, t) := by
      simp only [result, run, answer] at hend ⊢
      rw [hend]
    rw [hresult]
    exact ⟨hleaves, rfl, fun e he => absurd he (by simp [Outcome.error?]), fun _ => ⟨rfl, rfl⟩⟩

theorem run_refines (s : Session α) {x : Meaning α A B γ}
    {decoded : Except GemmError (Decoded α A B γ)} (hread : x.ReadBy decoded)
    {c : Pointer (Array γ)} {entry : Entry α A B γ}
    (hc : ∀ call, x.call call → c.Holds call.c.size call.c)
    (hsettled : ∀ call, x.call call →
      (entry s.dispatcher call.request call.c).Settled call.c) :
    Refines x s c entry (s.errorOf decoded entry) (s.run c decoded entry) := by
  cases decoded with
  | error e =>
    exact {
      complete := hread.complete
      missing := fun h => by
        obtain ⟨cause, hcause⟩ := hread.missing h
        cases hcause
        rfl
      malformed := fun e' h => by
        cases hread.malformed e' h
        rfl
      answered := fun call h => absurd (hread.call call h) (by simp)
      failed := fun e' h => by
        cases h
        exact ⟨rfl, rfl⟩
      succeeded := fun h => absurd h (by simp [errorOf])
      kept := fun _ => rfl }
  | ok call =>
    have hcall : x.call call := by
      rcases hread.complete with h | ⟨e, h⟩ | ⟨call', h⟩
      · obtain ⟨cause, hcause⟩ := hread.missing h
        cases hcause
      · cases hread.malformed e h
      · cases hread.call call' h
        exact h
    -- what was read is the call that the arguments stand for, and no other
    obtain ⟨hleaves, hdispatcher, hfailed, hsucceeded⟩ :=
      s.run_settled (hc call hcall) (hsettled call hcall)
    exact {
      complete := hread.complete
      missing := fun h => by
        obtain ⟨cause, hcause⟩ := hread.missing h
        cases hcause
      malformed := fun e h => by cases hread.malformed e h
      answered := fun call' h => by
        cases hread.call call' h
        exact ⟨(hsettled call hcall).ends, rfl, hleaves, hdispatcher⟩
      failed := fun e he => ⟨(hfailed e he).1, (hfailed e he).2.1⟩
      succeeded := hsucceeded
      kept := fun hstatus => by
        cases herror : (entry s.dispatcher call.request call.c).outcome.error? with
        | none => exact absurd (hsucceeded herror).1 hstatus
        | some e => exact (hfailed e herror).2.2 }

theorem run_vendor {s : Session α} {decoded : Except GemmError (Decoded α A B γ)}
    {entry : Entry α A B γ}
    (h : ∀ q c, s.dispatcher.SameSettings (entry s.dispatcher q c).dispatcher)
    (c : Pointer (Array γ)) :
    (s.run c decoded entry).2.dispatcher.vendor = s.dispatcher.vendor := by
  cases decoded with
  | error e => rfl
  | ok call =>
    simp only [run]
    split <;> exact (h call.request call.c).vendor

end Session

/-- Generated kernels can pack the operands of the shape that the arguments stand for, if it has
work to do. -/
def ShapeArguments.Packable (x : ShapeArguments) : Prop :=
  ∀ s, x.Given (.ok s) → s.degenerate = false → ∀ key : TileKey, s.Packable key.rows

section

variable (ar : Arith α)

theorem RealCall.run_refines {elem : ElemType} {x : RealCall α A} {entry : Entry α A A α}
    (hsound : ∀ s, x.shape.Given (.ok s) → x.Sound elem s) (hpack : x.shape.Packable)
    (s : Session α)
    (hsettled : ∀ q c, (q.outline ar elem elem .f32 c.size).Addressable →
      q.shape.ldc * tileCols < Size.modulus →
      (q.shape.degenerate = false → ∀ key : TileKey, q.shape.Packable key.rows) →
      (entry s.dispatcher q c).Settled c) :
    Refines (x.meaning elem) s x.c entry (s.errorOf (x.decode elem) entry)
      (s.run x.c (x.decode elem) entry) := by
  refine s.run_refines (x.readBy_decode elem hsound) ?_ ?_
  · exact fun call h => (hsound _ h.shape).c.holds h.c
  · exact fun call h => hsettled _ _ (h.addressable (hsound _ h.shape) ar) (hsound _ h.shape).wide
      (hpack _ h.shape)

theorem QuantizedCall.run_refines {kind : IntKind B} {x : QuantizedCall α B}
    {entry : Entry α Int8 B Int32} (hsound : ∀ s, x.shape.Given (.ok s) → x.Sound kind s)
    (hpack : x.shape.Packable) (s : Session α)
    (hsettled : ∀ q c, (q.outline ar .s8 kind.elem .s32 c.size).Addressable →
      q.shape.ldc * tileCols < Size.modulus →
      (q.shape.degenerate = false → ∀ key : TileKey, q.shape.Packable key.rows) →
      (entry s.dispatcher q c).Settled c) :
    Refines (x.meaning kind) s x.c entry (s.errorOf (x.decode kind) entry)
      (s.run x.c (x.decode kind) entry) := by
  refine s.run_refines (x.readBy_decode kind hsound) ?_ ?_
  · exact fun call h => (hsound _ h.shape).c.holds h.c
  · exact fun call h => hsettled _ _ (h.addressable (hsound _ h.shape) ar) (hsound _ h.shape).wide
      (hpack _ h.shape)

end

theorem Refines.lastError {x : Meaning α A B γ} {s : Session α} {c : Pointer (Array γ)}
    {entry : Entry α A B γ} {failure : Option GemmError} {result : Reply γ × Session α}
    (h : Refines x s c entry failure result) :
    result.2.lastError = failure.elim s.lastError fun e => some (visible e.message) := by
  cases hfailure : failure with
  | none => exact (h.succeeded hfailure).2
  | some e => exact (h.failed e hfailure).2

end

-- ---------------------------------------------------------------------------
-- Sequences of calls
-- ---------------------------------------------------------------------------

/-- The arguments that a call without bias and switch has. -/
def RealCall.plain {α A : Type} (x : RealCall α A) : RealCall α A :=
  { x with bias := none, forceNocopy := false }

/-- What one thread calls. -/
inductive Call (α : Type) where
  | sgemm (x : RealCall α α)
  | sgemmExt (x : RealCall α α)
  | bf16 (x : RealCall α BFloat16)
  | s8u8 (x : QuantizedCall α UInt8)
  | s8s8 (x : QuantizedCall α Int8)
  | setDump (on : Bool)
  | lastError

/-- Every pointer of the call is null or leads to enough data, and panels of C have a width. -/
def Call.Sound {α : Type} : Call α → Prop
  | .sgemm x => ∀ s, x.shape.Given (.ok s) → x.plain.Sound .f32 s
  | .sgemmExt x => ∀ s, x.shape.Given (.ok s) → x.Sound .f32 s
  | .bf16 x => ∀ s, x.shape.Given (.ok s) → x.plain.Sound .bf16 s
  | .s8u8 x => ∀ s, x.shape.Given (.ok s) → x.Sound .unsigned s
  | .s8s8 x => ∀ s, x.shape.Given (.ok s) → x.Sound .signed s
  | .setDump _ | .lastError => True

/-- The operands of the call can be packed. -/
def Call.Packable {α : Type} : Call α → Prop
  | .sgemm x | .sgemmExt x => x.shape.Packable
  | .bf16 x => x.shape.Packable
  | .s8u8 x => x.shape.Packable
  | .s8s8 x => x.shape.Packable
  | .setDump _ | .lastError => True

namespace Session

variable {α : Type} (ar : Arith α)

def step (s : Session α) : Call α → Session α
  | .sgemm x => (s.sgemm ar x).2
  | .sgemmExt x => (s.sgemmExt ar x).2
  | .bf16 x => (s.bf16 ar x).2
  | .s8u8 x => (s.s8u8 ar x).2
  | .s8s8 x => (s.s8s8 ar x).2
  | .setDump on => s.setDump on
  | .lastError => s.takeLastError.2

def after (s : Session α) (calls : List (Call α)) : Session α := calls.foldl (step ar) s

def failure? (s : Session α) : Call α → Option GemmError
  | .sgemm x => s.errorOf (x.plain.decode .f32) (Dispatcher.sgemm ar)
  | .sgemmExt x => s.errorOf (x.decode .f32) (Dispatcher.sgemm ar)
  | .bf16 x => s.errorOf (x.plain.decode .bf16) (Dispatcher.bf16 ar)
  | .s8u8 x => s.errorOf (x.decode .unsigned) (Dispatcher.s8u8 ar)
  | .s8s8 x => s.errorOf (x.decode .signed) (Dispatcher.s8s8 ar)
  | .setDump _ | .lastError => none

/-- What the next call of a session comes to. -/
def Serves (s : Session α) : Call α → Prop
  | .sgemm x =>
    Refines (x.plain.meaning .f32) s x.c (Dispatcher.sgemm ar) (s.failure? ar (.sgemm x))
      (s.sgemm ar x)
  | .sgemmExt x =>
    Refines (x.meaning .f32) s x.c (Dispatcher.sgemm ar) (s.failure? ar (.sgemmExt x))
      (s.sgemmExt ar x)
  | .bf16 x =>
    Refines (x.plain.meaning .bf16) s x.c (Dispatcher.bf16 ar) (s.failure? ar (.bf16 x))
      (s.bf16 ar x)
  | .s8u8 x =>
    Refines (x.meaning .unsigned) s x.c (Dispatcher.s8u8 ar) (s.failure? ar (.s8u8 x))
      (s.s8u8 ar x)
  | .s8s8 x =>
    Refines (x.meaning .signed) s x.c (Dispatcher.s8s8 ar) (s.failure? ar (.s8s8 x))
      (s.s8s8 ar x)
  | .setDump on => (s.setDump on).lastError = s.lastError
  | .lastError => s.takeLastError.2 = { s with lastError := none }

/-- One of the calls failed with `e`. After it none failed, and nobody asked for the message. -/
def LastFailure (s : Session α) (calls : List (Call α)) (e : GemmError) : Prop :=
  ∃ before call rest, calls = before ++ call :: rest ∧
    (s.after ar before).failure? ar call = some e ∧
    ∀ between next later, rest = between ++ next :: later →
      next ≠ .lastError ∧ (s.after ar (before ++ call :: between)).failure? ar next = none

variable {ar} {s : Session α} {call : Call α}

theorem serves (hvendor : s.dispatcher.vendor = none) (hsound : call.Sound)
    (hpack : call.Packable) : s.Serves ar call := by
  cases call with
  | sgemm x =>
    exact RealCall.run_refines ar (x := x.plain) hsound hpack s fun _ _ =>
      Dispatcher.sgemm_settled ar hvendor
  | sgemmExt x =>
    exact RealCall.run_refines ar hsound hpack s fun _ _ => Dispatcher.sgemm_settled ar hvendor
  | bf16 x =>
    exact RealCall.run_refines ar (x := x.plain) hsound hpack s fun _ _ =>
      Dispatcher.bf16_settled ar _
  | s8u8 x =>
    exact QuantizedCall.run_refines ar hsound hpack s fun _ _ =>
      Dispatcher.igemm_settled ar (e := Dispatcher.unsignedB) hvendor
  | s8s8 x =>
    exact QuantizedCall.run_refines ar hsound hpack s fun _ _ =>
      Dispatcher.igemm_settled ar (e := Dispatcher.signedB) hvendor
  | setDump on => rfl
  | lastError => rfl

theorem vendor_step : (s.step ar call).dispatcher.vendor = s.dispatcher.vendor := by
  cases call with
  | sgemm x | sgemmExt x => exact run_vendor (Dispatcher.sgemm_settings ar _) _
  | bf16 x => exact run_vendor (Dispatcher.bf16_settings ar _) _
  | s8u8 x | s8s8 x => exact run_vendor (Dispatcher.igemm_settings ar _ _) _
  | setDump on => rfl
  | lastError => rfl

theorem after_concat (s : Session α) (calls : List (Call α)) (call : Call α) :
    s.after ar (calls ++ [call]) = (s.after ar calls).step ar call := by
  simp [after]

theorem vendor_after (s : Session α) (calls : List (Call α)) :
    (s.after ar calls).dispatcher.vendor = s.dispatcher.vendor := by
  induction calls using List.reverseRecOn with
  | nil => rfl
  | append_singleton calls call ih => rw [after_concat, vendor_step, ih]

/-- What one call does to the pending message, unless it asks for it. -/
theorem lastError_step (hserves : s.Serves ar call) (hcall : call ≠ .lastError) :
    (s.step ar call).lastError =
      (s.failure? ar call).elim s.lastError fun e => some (visible e.message) := by
  cases call with
  | sgemm x | sgemmExt x | bf16 x | s8u8 x | s8s8 x => exact hserves.lastError
  | setDump on => rfl
  | lastError => exact absurd rfl hcall

/-- The last failure with one more call. -/
theorem lastFailure_concat {calls : List (Call α)} {e : GemmError} :
    s.LastFailure ar (calls ++ [call]) e ↔
      (s.after ar calls).failure? ar call = some e ∨
        s.LastFailure ar calls e ∧ call ≠ .lastError ∧
          (s.after ar calls).failure? ar call = none := by
  constructor
  · rintro ⟨before, failed, rest, hcalls, hfailed, hquiet⟩
    rcases rest.eq_nil_or_concat' with rfl | ⟨rest, last, rfl⟩
    · obtain ⟨rfl, rfl⟩ : calls = before ∧ call = failed := by simpa using hcalls
      exact .inl hfailed
    · rw [← List.cons_append, ← List.append_assoc] at hcalls
      obtain ⟨rfl, rfl⟩ : calls = before ++ failed :: rest ∧ call = last := by
        simpa using List.append_inj' hcalls rfl
      refine .inr ⟨⟨before, failed, rest, rfl, hfailed, ?_⟩, hquiet rest call [] (by simp)⟩
      intro between next later hrest
      exact hquiet between next (later ++ [call]) (by simp [hrest])
  · rintro (hfailed | ⟨⟨before, failed, rest, rfl, hfailed, hquiet⟩, hcall, hnone⟩)
    · exact ⟨calls, call, [], rfl, hfailed, by simp⟩
    · refine ⟨before, failed, rest ++ [call], by simp, hfailed, ?_⟩
      intro between next later hrest
      rcases later.eq_nil_or_concat' with rfl | ⟨later, last, rfl⟩
      · obtain ⟨rfl, rfl⟩ : rest = between ∧ call = next := by simpa using hrest
        exact ⟨hcall, hnone⟩
      · rw [← List.cons_append, ← List.append_assoc] at hrest
        obtain ⟨rfl, rfl⟩ : rest = between ++ next :: later ∧ call = last := by
          simpa using List.append_inj' hrest rfl
        exact hquiet between next later rfl

/-- The pending message is that of the last failure. -/
theorem lastError_after (hvendor : s.dispatcher.vendor = none) (hnone : s.lastError = none)
    {calls : List (Call α)} (hsound : ∀ call ∈ calls, call.Sound)
    (hpack : ∀ call ∈ calls, call.Packable) (message : String) :
    (s.after ar calls).lastError = some message ↔
      ∃ e, s.LastFailure ar calls e ∧ message = visible e.message := by
  induction calls using List.reverseRecOn with
  | nil => simp [after, hnone, LastFailure]
  | append_singleton calls call ih =>
    have ih := ih (fun call h => hsound call (by simp [h])) fun call h => hpack call (by simp [h])
    have hserves : (s.after ar calls).Serves ar call :=
      serves (by rw [vendor_after, hvendor]) (hsound call (by simp)) (hpack call (by simp))
    rw [after_concat]
    simp only [lastFailure_concat]
    by_cases hcall : call = .lastError
    · subst hcall
      simp [step, takeLastError, failure?]
    · rw [lastError_step hserves hcall]
      cases hfailure : (s.after ar calls).failure? ar call with
      | none => simpa [hcall] using ih
      | some e => simp [eq_comm]

variable (ar)

/-- Whatever a thread called before, its next call refines the call of the dispatcher, and the
message to be had is that of the last failure since it was asked for. A dispatcher is built without
a vendor library, and foreign calls cannot give it one. All this is about calls whose operands can
be packed. -/
theorem calls_refine (s : Session α) (hvendor : s.dispatcher.vendor = none)
    (hnone : s.lastError = none) (calls : List (Call α)) (hsound : ∀ call ∈ calls, call.Sound)
    (hpack : ∀ call ∈ calls, call.Packable) :
    (∀ call : Call α, call.Sound → call.Packable → (s.after ar calls).Serves ar call) ∧
      ∀ message, (s.after ar calls).takeLastError.1 = some message ↔
        ∃ e, s.LastFailure ar calls e ∧ message = visible e.message :=
  ⟨fun _ => serves (by rw [vendor_after, hvendor]), lastError_after hvendor hnone hsound hpack⟩

/-- One row times one column, into a C that goes on after its only element. -/
def dotProduct : RealCall Single Single where
  shape := {
    transA := some 78, transB := some 110, m := some 1, n := some 1, k := some 2
    lda := some 1, ldb := some 2, ldc := some 1 }
  alpha := some .one
  beta := some .zero
  a := some #[.one, ⟨0x40000000⟩]
  b := some #[⟨0x40400000⟩, ⟨0x40800000⟩]
  c := some #[.zero, .one, .one]

/-- The call that `dotProduct` stands for. -/
def dotProductCall : Decoded Single Single Single Single where
  request := {
    shape := .tight .noTrans .noTrans 1 1 2
    a := #[.one, ⟨0x40000000⟩]
    b := #[⟨0x40400000⟩, ⟨0x40800000⟩]
    alpha := .one
    beta := .zero }
  c := #[.zero]

theorem dotProduct_stands : dotProduct.plain.Stands .f32 dotProductCall where
  shape := ⟨⟨78, 110, 1, 1, 2, 1, 2, 1⟩, rfl, rfl⟩
  alpha := rfl
  beta := rfl
  a := .given _ 2
  b := .given _ 2
  c := .given _ 1
  bias := rfl
  forceNocopy := rfl
  zeroPoints := rfl
  offset := rfl

/-- After a call with nothing but nulls the product succeeds: it writes its element and keeps the
rest of C, and the message is still there. -/
theorem dotProduct_after_nulls :
    let s : Session Single := { dispatcher := .build ⟨.empty, some .sysV, 4⟩ {} {} .serial }
    let t := s.after Single.arith [.sgemmExt { shape := {} }]
    (∃ out, (t.sgemm Single.arith dotProduct).1 = ⟨.success, some out⟩ ∧
      out[0]? = some ⟨0x41300000⟩ ∧ out[2]? = some .one) ∧
      t.takeLastError.1 = some "invalid arguments: transa is null" := by
  intro s t
  have hnulls : (Call.sgemmExt (α := Single) { shape := {} }).Sound ∧
      (Call.sgemmExt (α := Single) { shape := {} }).Packable := by
    constructor <;> rintro _ ⟨_, -, ⟨⟩⟩
  have hshape {shape : GemmShape} (h : dotProduct.shape.Given (.ok shape)) :
      GemmShape.tight .noTrans .noTrans 1 1 2 = shape := Except.ok.inj h.shape_eq
  have hsound : (Call.sgemm dotProduct).Sound := by
    intro shape h
    obtain rfl := hshape h
    refine ⟨?_, ?_, ?_, by rintro _ ⟨⟩, by decide⟩ <;>
      (rintro buffer ⟨⟩; decide)
  have hpack : (Call.sgemm dotProduct).Packable := by
    intro shape h _
    obtain rfl := hshape h
    exact GemmShape.packable_of_spare (by decide)
  obtain ⟨hserves, hmessage⟩ := calls_refine Single.arith s rfl rfl [.sgemmExt { shape := {} }]
    (by simpa using hnulls.1) (by simpa using hnulls.2)
  have hproduct := hserves (.sgemm dotProduct) hsound hpack
  let answer := Dispatcher.sgemm Single.arith t.dispatcher dotProductCall.request dotProductCall.c
  obtain ⟨houtcome, hc⟩ : answer.outcome = .routed .reference ∧ answer.c = #[⟨0x41300000⟩] := by
    decide +kernel
  obtain ⟨-, hfailure, hleaves, -⟩ := hproduct.answered dotProductCall dotProduct_stands
  have hstatus := (hproduct.succeeded (hfailure.trans (congrArg Outcome.error? houtcome))).1
  rw [show (Dispatcher.sgemm _ _ _ _).c = _ from hc] at hleaves
  refine ⟨?_, (hmessage _).mpr
    ⟨.invalidArguments (.null "transa"), ⟨[], _, [], rfl, rfl, by simp⟩, rfl⟩⟩
  generalize (t.sgemm Single.arith dotProduct).1 = reply at hleaves hstatus
  obtain ⟨status, c⟩ := reply
  obtain rfl : status = .success := hstatus
  cases hleaves with
  | written _ elements => exact ⟨_, rfl, (elements 0).trans rfl, (elements 2).trans rfl⟩

end Session

end Foreign

end JitGemm
