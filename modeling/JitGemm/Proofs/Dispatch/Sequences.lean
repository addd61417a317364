import JitGemm.Proofs.Dispatch.KernelCache
import JitGemm.Proofs.Gemm.AcceptedRuns

/-!
# Sequences of calls

Calls of all kinds on one dispatcher, with dumping switched on and off in between. No call can tell
what came before it; only the registrar can.
-/

namespace JitGemm

/-- A call and the C that it works on. -/
inductive Job (α : Type) where
  | sgemm (q : Request α α α) (c : Array α)
  | bf16 (q : Request α BFloat16 BFloat16) (c : Array α)
  | s8u8 (q : Request α Int8 UInt8) (c : Array Int32)
  | s8s8 (q : Request α Int8 Int8) (c : Array Int32)

/-- What a caller has of a call: its outcome, which names the route, and C. -/
structure Reply (α : Type) where
  outcome : Outcome
  c : Array α ⊕ Array Int32

namespace Reply

variable {α : Type}

def real (x : Outcome × Array α) : Reply α := ⟨x.1, .inl x.2⟩

def quantized (x : Outcome × Array Int32) : Reply α := ⟨x.1, .inr x.2⟩

end Reply

inductive Use (α : Type) where
  | job (j : Job α)
  /-- The process-wide toggle. -/
  | dumping (on : Bool)

namespace Job

variable {α : Type} (ar : Arith α)

/-- Whether a machine with 64-bit sizes can hold the call. -/
def Addressable : Job α → Prop
  | sgemm q c => (q.outline ar .f32 .f32 .f32 c.size).Addressable
  | bf16 q c => (q.outline ar .bf16 .bf16 .f32 c.size).Addressable
  | s8u8 q c => (q.outline ar .s8 .u8 .s32 c.size).Addressable
  | s8s8 q c => (q.outline ar .s8 .s8 .s32 c.size).Addressable

def onReference (team : Work.Team) : Job α → Reply α
  | sgemm q c =>
    .real (ended .reference (Reference.float ar team q (q.floatA .f32 id) (q.floatB .f32 id)) c)
  | bf16 q c =>
    .real (ended .reference
      (Reference.float ar team q (q.floatA .bf16 ar.ofBf16) (q.floatB .bf16 ar.ofBf16)) c)
  | s8u8 q c =>
    .quantized (ended .reference (Reference.int ar team q q.intA (q.intB .unsigned)) c)
  | s8s8 q c =>
    .quantized (ended .reference (Reference.int ar team q q.intA (q.intB .signed)) c)

end Job

namespace Dispatcher

variable {α : Type} (ar : Arith α) (d : Dispatcher α)

def serve : Job α → Reply α × Dispatcher α
  | .sgemm q c =>
    let r := d.sgemm ar q c
    (.real (r.outcome, r.c), r.dispatcher)
  | .bf16 q c =>
    let r := d.bf16 ar q c
    (.real (r.outcome, r.c), r.dispatcher)
  | .s8u8 q c =>
    let r := d.s8u8 ar q c
    (.quantized (r.outcome, r.c), r.dispatcher)
  | .s8s8 q c =>
    let r := d.s8s8 ar q c
    (.quantized (r.outcome, r.c), r.dispatcher)

def use : Use α → Dispatcher α
  | .job j => (d.serve ar j).2
  | .dumping on => { d with policy.dump.toggle := on }

def after (uses : List (Use α)) : Dispatcher α := uses.foldl (use ar) d

/-- The key of the kernel that a call asks for, if it asks for one. -/
def key? : Job α → Option TileKey
  | .sgemm q c => (d.sgemmCourse ar q c.size).key?
  | .bf16 q c => (d.bf16Course ar q c.size).key?
  | .s8u8 q c => (d.igemmCourse ar .unsigned q c.size).key?
  | .s8s8 q c => (d.igemmCourse ar .signed q c.size).key?

/-- What a call comes to with the kernels of some generation. -/
def reply (generated? : TileKey → Option CachedKernel) : Job α → Reply α
  | .sgemm q c => .real ((d.sgemmCourse ar q c.size).reply generated? c)
  | .bf16 q c => .real ((d.bf16Course ar q c.size).reply generated? c)
  | .s8u8 q c => .quantized ((d.igemmCourse ar .unsigned q c.size).reply generated? c)
  | .s8s8 q c => .quantized ((d.igemmCourse ar .signed q c.size).reply generated? c)

def useKey? : Use α → Option TileKey
  | .job j => d.key? ar j
  | .dumping _ => none

/-- The keys that are asked for, in order of first use. -/
def keys (uses : List (Use α)) : List TileKey := (uses.filterMap (d.useKey? ar)).eraseDups

variable {ar d}

theorem serve_eq (hd : d.Valid) (hvendor : d.vendor = none) (j : Job α) :
    d.serve ar j = (d.reply ar d.generated? j, (d.key? ar j).elim d d.keep) := by
  cases j with
  | sgemm q c => simp only [serve, sgemm_answer hd hvendor]; rfl
  | bf16 q c => simp only [serve, bf16_answer hd]; rfl
  | s8u8 q c => simp only [serve, s8u8, igemm_answer hd hvendor]; rfl
  | s8s8 q c => simp only [serve, s8s8, igemm_answer hd hvendor]; rfl

-- ---------------------------------------------------------------------------
-- Settings
-- ---------------------------------------------------------------------------

/-- The same settings, but for dumping. -/
structure Alike (d d' : Dispatcher α) : Prop where
  caps : d'.caps = d.caps
  target : d'.target = d.target
  capacity : d'.policy.capacity = d.policy.capacity
  team : d'.team = d.team

namespace Alike

variable {d' : Dispatcher α} (h : d.Alike d')

include h

theorem generated : d'.generated? = d.generated? :=
  generated?_congr h.caps h.target h.capacity

theorem key (j : Job α) : d'.key? ar j = d.key? ar j := by
  cases j <;> simp only [key?, sgemmCourse, bf16Course, igemmCourse, floatCourse, jit, h.caps,
    h.target, h.team]

theorem reply (g : TileKey → Option CachedKernel) (j : Job α) :
    d'.reply ar g j = d.reply ar g j := by
  cases j <;> simp only [Dispatcher.reply, sgemmCourse, bf16Course, igemmCourse, floatCourse, jit,
    h.caps, h.target, h.team]

end Alike

-- ---------------------------------------------------------------------------
-- What is kept along a sequence
-- ---------------------------------------------------------------------------

end Dispatcher

/-- What the registrar is told of a kernel. -/
def CachedKernel.registration (k : CachedKernel) : Registration :=
  ⟨k.kernel.code.name, k.kernel.code.size, k.kernel.code.target⟩

theorem eraseDups_concat (keys : List TileKey) (key : TileKey) :
    (keys ++ [key]).eraseDups =
      if key ∈ keys then keys.eraseDups else keys.eraseDups ++ [key] := by
  rw [List.eraseDups_append]
  by_cases h : key ∈ keys <;> simp [List.removeAll, List.eraseDups_cons, h]

theorem nodup_eraseDups (keys : List TileKey) : keys.eraseDups.Nodup := by
  match keys with
  | [] => simp
  | key :: rest =>
    have hrest := nodup_eraseDups (rest.filter fun b => !b == key)
    rw [List.eraseDups_cons, List.nodup_cons, List.mem_eraseDups]
    exact ⟨by simp, hrest⟩
termination_by keys.length
decreasing_by exact Nat.lt_succ_of_le (List.length_filter_le _ _)

namespace Dispatcher

variable {α : Type} {ar : Arith α} {d d' : Dispatcher α} {keys : List TileKey}

/-- What becomes of a new dispatcher once some keys were asked for. -/
structure Kept (d : Dispatcher α) (keys : List TileKey) (d' : Dispatcher α) : Prop where
  alike : d.Alike d'
  vendor : d'.vendor = none
  kernels : d'.kernels = keys.eraseDups.filterMap d.generated?
  registered : d'.journal.registered =
    d.journal.registered ++ (d'.kernels.map CachedKernel.registration).toArray

namespace Kept

theorem valid (h : d.Kept keys d') : d'.Valid := by
  intro k hk
  rw [h.kernels] at hk
  obtain ⟨key, -, hkey⟩ := List.mem_filterMap.mp hk
  rw [h.alike.generated, key_generated hkey, hkey]

/-- A key with a kernel is kept just if it was asked for. -/
theorem any_kept (h : d.Kept keys d') {key : TileKey} {k : CachedKernel}
    (hk : d.generated? key = some k) :
    d'.kernels.any (·.kernel.key == key) = decide (key ∈ keys) := by
  rw [Bool.eq_iff_iff, List.any_eq_true, decide_eq_true_eq, h.kernels]
  constructor
  · rintro ⟨k', hmem, hsame⟩
    obtain ⟨key', hin, hkey'⟩ := List.mem_filterMap.mp hmem
    rw [beq_iff_eq, key_generated hkey'] at hsame
    exact hsame ▸ List.mem_eraseDups.mp hin
  · intro hin
    refine ⟨k, List.mem_filterMap.mpr ⟨key, List.mem_eraseDups.mpr hin, hk⟩, ?_⟩
    rw [beq_iff_eq, key_generated hk]

theorem keep (h : d.Kept keys d') (key : TileKey) : d.Kept (keys ++ [key]) (d'.keep key) := by
  have hgenerated : d'.generated? key = d.generated? key := congrFun h.alike.generated key
  cases hkey : d.generated? key with
  | none =>
    have hkernels : (keys ++ [key]).eraseDups.filterMap d.generated? =
        keys.eraseDups.filterMap d.generated? := by
      rw [eraseDups_concat]
      split <;> simp [hkey]
    rw [keep_of_none (hgenerated.trans hkey)]
    exact ⟨h.alike, h.vendor, h.kernels.trans hkernels.symm, h.registered⟩
  | some k =>
    have hany := h.any_kept hkey
    -- Only a key that was not asked for before leads to a kernel that is not kept yet.
    by_cases hin : key ∈ keys
    · have hsame : d'.keep key = d' := by simp [Dispatcher.keep, hgenerated, hkey, hany, hin]
      rw [hsame]
      refine ⟨h.alike, h.vendor, ?_, h.registered⟩
      rw [h.kernels, eraseDups_concat, if_pos hin]
    · have hnew : d'.keep key = { d' with
          kernels := d'.kernels ++ [k]
          journal := (d'.journal.register k.kernel.code).dump d'.policy.dump k.kernel.code } := by
        simp [Dispatcher.keep, hgenerated, hkey, hany, hin]
      have htold : ((d'.journal.register k.kernel.code).dump d'.policy.dump
          k.kernel.code).registered = d'.journal.registered.push k.registration := by
        unfold Journal.dump
        split <;> rfl
      rw [hnew]
      refine ⟨⟨h.alike.caps, h.alike.target, h.alike.capacity, h.alike.team⟩, h.vendor, ?_, ?_⟩
      · simp [h.kernels, eraseDups_concat, hin, hkey]
      · simp [htold, h.registered]

variable (ar)

theorem use (h : d.Kept keys d') (u : Use α) :
    d.Kept (keys ++ (d.useKey? ar u).toList) (d'.use ar u) := by
  cases u with
  | dumping on =>
    rw [useKey?, Option.toList_none, List.append_nil]
    exact ⟨⟨h.alike.caps, h.alike.target, h.alike.capacity, h.alike.team⟩, h.vendor, h.kernels,
      h.registered⟩
  | job j =>
    rw [Dispatcher.use, serve_eq h.valid h.vendor, h.alike.key, useKey?]
    cases d.key? ar j with
    | none => simpa using h
    | some key => exact h.keep key

theorem after (h : d.Kept keys d') (uses : List (Use α)) :
    d.Kept (keys ++ uses.filterMap (d.useKey? ar)) (d'.after ar uses) := by
  induction uses generalizing keys d' with
  | nil => simpa [Dispatcher.after] using h
  | cons u uses ih =>
    have hrest := ih (h.use ar u)
    have hkeys : (u :: uses).filterMap (d.useKey? ar) =
        (d.useKey? ar u).toList ++ uses.filterMap (d.useKey? ar) := by
      cases hu : d.useKey? ar u <;> simp [hu]
    rw [hkeys, ← List.append_assoc]
    exact hrest

end Kept

theorem kept_new {d : Dispatcher α} (hvendor : d.vendor = none) (hnew : d.kernels = []) :
    d.Kept [] d where
  alike := ⟨rfl, rfl, rfl, rfl⟩
  vendor := hvendor
  kernels := by simp [hnew]
  registered := by simp [hnew]

end Dispatcher

-- ---------------------------------------------------------------------------
-- Keys without a kernel
-- ---------------------------------------------------------------------------

namespace Course

variable {γ : Type} {check : Except GemmError Unit} {degenerate : Bool} {course : Course γ}
  {key : TileKey}

/-- A key is asked for only by calls that pass their checks. -/
theorem guarded_of_key (h : (guarded check degenerate course).key? = some key) :
    check = .ok () ∧ guarded check degenerate course = course := by
  cases check with
  | error e => cases h
  | ok u =>
    cases degenerate with
    | true => cases h
    | false => exact ⟨rfl, rfl⟩

/-- Without a kernel, a call with a key is one of the reference kernel. -/
def FallsTo (course : Course γ) (reference : Run γ Unit) : Prop :=
  ∀ key, course.key? = some key → ∃ route tiles, course = .tiled key route tiles reference

theorem FallsTo.reply {reference : Run γ Unit} (h : course.FallsTo reference)
    (hkey : course.key? = some key) {g : TileKey → Option CachedKernel} (hg : g key = none)
    (c : Array γ) : course.reply g c = ended .reference reference c := by
  obtain ⟨route, tiles, rfl⟩ := h key hkey
  simp only [Course.reply, hg]

theorem FallsTo.guarded {reference : Run γ Unit} (h : course.FallsTo reference)
    (check : Except GemmError Unit) (degenerate : Bool) :
    (Course.guarded check degenerate course).FallsTo reference := by
  intro key hkey
  obtain ⟨-, hsame⟩ := guarded_of_key hkey
  rw [hsame] at hkey ⊢
  exact h key hkey

end Course

theorem ended_of_ok {γ : Type} {run : Run γ Unit} {c c' : Array γ} (h : run.run c = .ok () c')
    (route : Decision) : (ended route run c).1 = .routed route := by
  simp [ended, h]

namespace Dispatcher

variable {α B : Type} {ar : Arith α} {d : Dispatcher α}

theorem fallsTo_sgemm (q : Request α α α) (size : Nat) :
    (d.sgemmCourse ar q size).FallsTo
      (Reference.float ar d.team q (q.floatA .f32 id) (q.floatB .f32 id)) := by
  refine Course.FallsTo.guarded (fun key hkey => ?_) _ _
  cases hdecision : Decision.sgemm d.caps d.jit false q.forceNocopy <;> rw [hdecision] at hkey <;>
    cases hkey
  exact ⟨_, _, rfl⟩

theorem fallsTo_bf16 (q : Request α BFloat16 BFloat16) (size : Nat) :
    (d.bf16Course ar q size).FallsTo
      (Reference.float ar d.team q (q.floatA .bf16 ar.ofBf16) (q.floatB .bf16 ar.ofBf16)) := by
  refine Course.FallsTo.guarded (fun key hkey => ?_) _ _
  cases hdecision : Decision.bf16? d.caps d.jit with
  | none =>
    rw [hdecision] at hkey
    cases hkey
  | some decision =>
    cases decision <;> rw [hdecision] at hkey <;> cases hkey
    exact ⟨_, _, rfl⟩

theorem fallsTo_igemm (kind : IntKind B) (q : Request α Int8 B) (size : Nat) :
    (d.igemmCourse ar kind q size).FallsTo (Reference.int ar d.team q q.intA (q.intB kind)) := by
  refine Course.FallsTo.guarded (fun key hkey => ?_) _ _
  revert hkey
  cases Decision.igemm d.caps d.jit q.shape.m q.shape.n q.zeroPoints with
  | generated isa | simplified isa =>
    rintro ⟨⟩
    exact ⟨_, _, rfl⟩
  | vendor | reference => rintro ⟨⟩

/-- A call whose key has no kernel is served by the reference kernel. -/
theorem reply_failed {j : Job α} {key : TileKey} (hkey : d.key? ar j = some key)
    {g : TileKey → Option CachedKernel} (hg : g key = none) :
    d.reply ar g j = j.onReference ar d.team := by
  cases j with
  | sgemm q c => exact congrArg Reply.real ((fallsTo_sgemm q c.size).reply hkey hg c)
  | bf16 q c => exact congrArg Reply.real ((fallsTo_bf16 q c.size).reply hkey hg c)
  | s8u8 q c => exact congrArg Reply.quantized ((fallsTo_igemm .unsigned q c.size).reply hkey hg c)
  | s8s8 q c => exact congrArg Reply.quantized ((fallsTo_igemm .signed q c.size).reply hkey hg c)

/-- A call with a key comes to its end on the reference kernel. -/
theorem outcome_onReference {j : Job α} {key : TileKey} (hkey : d.key? ar j = some key)
    (hfit : j.Addressable ar) (team : Work.Team) :
    (j.onReference ar team).outcome = .routed .reference := by
  cases j with
  | sgemm q c =>
    obtain ⟨hcheck, -⟩ := Course.guarded_of_key hkey
    exact ended_of_ok (Request.run_reference ar hfit hcheck id team) _
  | bf16 q c =>
    obtain ⟨hcheck, -⟩ := Course.guarded_of_key hkey
    exact ended_of_ok (Request.run_reference ar hfit hcheck ar.ofBf16 team) _
  | s8u8 q c =>
    obtain ⟨hcheck, -⟩ := Course.guarded_of_key hkey
    exact ended_of_ok (Request.run_intReference ar .unsigned hfit hcheck team) _
  | s8s8 q c =>
    obtain ⟨hcheck, -⟩ := Course.guarded_of_key hkey
    exact ended_of_ok (Request.run_intReference ar .signed hfit hcheck team) _

-- ---------------------------------------------------------------------------
-- Whole sequences
-- ---------------------------------------------------------------------------

theorem map_key_generated (d : Dispatcher α) (keys : List TileKey) :
    (keys.filterMap d.generated?).map (·.kernel.key) =
      keys.filter fun key => (d.generated? key).isSome := by
  induction keys with
  | nil => rfl
  | cons key keys ih =>
    cases h : d.generated? key with
    | none => simp [h, ih]
    | some k => simp [h, ih, key_generated h]

/-- What a sequence of uses leaves, and what the next call finds. -/
structure Transparent (ar : Arith α) (d : Dispatcher α) (uses : List (Use α)) : Prop where
  /-- The next call gets what it gets from a new dispatcher with the same settings. -/
  replies : ∀ new : Dispatcher α, d.Alike new → new.vendor = none → new.kernels = [] →
    ∀ j, ((d.after ar uses).serve ar j).1 = (new.serve ar j).1
  /-- There is one kernel for each key that was asked for and can be generated. -/
  distinct : (d.keys ar uses).Nodup
  kernels : (d.after ar uses).kernels.map (·.kernel.key) =
    (d.keys ar uses).filter fun key => (d.generated? key).isSome
  /-- The registrar was told of these kernels once, in order of first use. -/
  registered : (d.after ar uses).journal.registered = d.journal.registered ++
    (((d.keys ar uses).filterMap d.generated?).map CachedKernel.registration).toArray
  /-- A call whose key cannot be generated leaves everything as it is and completes on the
  reference kernel. -/
  failed : ∀ j key, d.key? ar j = some key → d.generated? key = none →
    (d.after ar uses).serve ar j = (j.onReference ar d.team, d.after ar uses) ∧
      (j.Addressable ar → (j.onReference ar d.team).outcome = .routed .reference)

/-- Keeping kernels is transparent, whatever calls a new dispatcher without vendor library serves,
in whatever order, and it generates once. -/
theorem serves_transparently (ar : Arith α) (d : Dispatcher α) (hvendor : d.vendor = none)
    (hnew : d.kernels = []) (uses : List (Use α)) : Transparent ar d uses := by
  have hkept : d.Kept (uses.filterMap (d.useKey? ar)) (d.after ar uses) :=
    (kept_new hvendor hnew).after ar uses
  constructor
  · intro new halike hvendor' hnew' j
    -- Both answer as generation has it, and generation goes by the settings.
    have hvalid : new.Valid := (kept_new hvendor' hnew').valid
    rw [serve_eq hkept.valid hkept.vendor, serve_eq hvalid hvendor', hkept.alike.reply,
      halike.reply, hkept.alike.generated, halike.generated]
  · exact nodup_eraseDups _
  · rw [hkept.kernels]
    exact map_key_generated d _
  · rw [hkept.registered, hkept.kernels]
    rfl
  · intro j key hkey hfailed
    refine ⟨?_, fun hfit => outcome_onReference hkey hfit d.team⟩
    have hgenerated : (d.after ar uses).generated? key = none :=
      (congrFun hkept.alike.generated key).trans hfailed
    have hkey' : (d.after ar uses).key? ar j = some key := (hkept.alike.key j).trans hkey
    rw [serve_eq hkept.valid hkept.vendor, reply_failed hkey' hgenerated, hkey', hkept.alike.team]
    exact congrArg _ (keep_of_none hgenerated)

/-- A processor without the common part of its widest extension, so that no kernel that wide can be
generated. -/
def partialDispatcher : Dispatcher Single :=
  build ⟨.ofList [.avx, .avx2, .avx512Core], some .sysV, 4⟩ {} {} .serial

def oneByOne : GemmShape := .tight .noTrans .noTrans 1 1 1

def realProduct : Job Single :=
  .sgemm ⟨oneByOne, #[.one], #[.one], .one, .zero, none, {}, none, false⟩ #[.zero]

def integerProduct : Job Single :=
  .s8u8 ⟨oneByOne, #[1], #[1], .one, .zero, none, {}, some ⟨.fixed, #[0]⟩, false⟩ #[0]

theorem partialDispatcher_serves :
    (partialDispatcher.after Single.arith
      [.job realProduct, .job integerProduct, .dumping true, .job integerProduct]).kernels.map
        (·.kernel.key) = [.int .avx2] ∧
      ((partialDispatcher.after Single.arith [.job integerProduct]).serve Single.arith
        realProduct).1.outcome = .routed .reference := by
  have hlong := serves_transparently Single.arith partialDispatcher rfl rfl
    [.job realProduct, .job integerProduct, .dumping true, .job integerProduct]
  have hshort := serves_transparently Single.arith partialDispatcher rfl rfl [.job integerProduct]
  obtain ⟨hserve, hends⟩ := hshort.failed realProduct (.float .avx512Core true false) rfl
    (by decide +kernel)
  refine ⟨hlong.kernels.trans (by decide +kernel), ?_⟩
  rw [hserve]
  exact hends (by constructor <;> decide)

end Dispatcher

end JitGemm
