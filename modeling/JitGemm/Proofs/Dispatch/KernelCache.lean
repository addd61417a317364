import JitGemm.Dispatch.Dispatcher

/-!
# Kept kernels

What a call comes to is decided by the settings of its dispatcher and by what generation makes of
the call's key. Kept kernels are what generation would make again, so that calls before it change
nothing for a call, and the registrar hears of every key once, when it is used first.
-/

namespace JitGemm

-- ---------------------------------------------------------------------------
-- Generation
-- ---------------------------------------------------------------------------

theorem TileKey.generate_eq (key : TileKey) (target : Target) (caps : IsaSet) (p : KernelPolicy)
    (j : Journal) :
    key.generate target caps p j =
      match (Tile.generator key target caps).finish p.capacity with
      | .error e => (.error e, j)
      | .ok code => (.ok ⟨key, code⟩, (j.register code).dump p.dump code) := by
  rw [generate, Generator.publish]
  cases (Tile.generator key target caps).finish p.capacity <;> rfl

namespace Dispatcher

variable {α : Type}

/-- What generation makes of a key, whoever is told. -/
def generated? (d : Dispatcher α) (key : TileKey) : Option CachedKernel :=
  match d.target with
  | none => none
  | some target =>
    match (key.generate target d.caps d.policy {}).1 with
    | .error _ => none
    | .ok kernel =>
      let table : OpTable := ⟨target, key.vecLen, d.caps⟩
      some ⟨kernel, table.lowering? .fmadd231 != some .synthesized⟩

/-- Whether kept kernels are what generation would make. -/
def Valid (d : Dispatcher α) : Prop :=
  ∀ k ∈ d.kernels, d.generated? k.kernel.key = some k

theorem valid_of_no_kernels {d : Dispatcher α} (h : d.kernels = []) : d.Valid := by
  simp [Valid, h]

/-- Keeps the kernel of a key and tells of it, unless there is none or it is kept already. -/
def keep (d : Dispatcher α) (key : TileKey) : Dispatcher α :=
  match d.generated? key with
  | none => d
  | some k =>
    if d.kernels.any (·.kernel.key == key) then d
    else { d with
      kernels := d.kernels ++ [k]
      journal := (d.journal.register k.kernel.code).dump d.policy.dump k.kernel.code }

theorem generated?_eq (d : Dispatcher α) (key : TileKey) {target : Target}
    (h : d.target = some target) :
    d.generated? key =
      match (Tile.generator key target d.caps).finish d.policy.capacity with
      | .error _ => none
      | .ok code => some ⟨⟨key, code⟩,
          (⟨target, key.vecLen, d.caps⟩ : OpTable).lowering? .fmadd231 != some .synthesized⟩ := by
  simp only [generated?, h, TileKey.generate_eq]
  cases (Tile.generator key target d.caps).finish d.policy.capacity <;> rfl

/-- Generation goes by the settings of a dispatcher. -/
theorem generated?_congr {d d' : Dispatcher α} (hcaps : d'.caps = d.caps)
    (htarget : d'.target = d.target) (hcapacity : d'.policy.capacity = d.policy.capacity) :
    d'.generated? = d.generated? := by
  funext key
  cases hd : d.target with
  | none => simp [generated?, hd, htarget]
  | some target =>
    rw [generated?_eq d key hd, generated?_eq d' key (htarget.trans hd), hcaps, hcapacity]

theorem key_generated {d : Dispatcher α} {key : TileKey} {k : CachedKernel}
    (h : d.generated? key = some k) : k.kernel.key = key := by
  cases htarget : d.target with
  | none => simp [generated?, htarget] at h
  | some target =>
    rw [generated?_eq d key htarget] at h
    split at h
    · cases h
    · cases h
      rfl

@[simp] theorem team_keep (d : Dispatcher α) (key : TileKey) : (d.keep key).team = d.team := by
  unfold keep
  split
  · rfl
  · split <;> rfl

theorem keep_of_none {d : Dispatcher α} {key : TileKey} (h : d.generated? key = none) :
    d.keep key = d := by
  simp [keep, h]

/-- Looking for a kept kernel first makes no difference to what is found. -/
theorem kernel?_eq {d : Dispatcher α} (hd : d.Valid) (key : TileKey) :
    d.kernel? key = (d.generated? key, d.keep key) := by
  cases htarget : d.target with
  | none => simp [kernel?, keep, generated?, htarget]
  | some target =>
    cases hfind : d.kernels.find? (·.kernel.key == key) with
    | some k =>
      have hmem := List.mem_of_find?_eq_some hfind
      have hfound : (k.kernel.key == key) = true :=
        List.find?_some (p := fun k : CachedKernel => k.kernel.key == key) hfind
      have hgenerated : d.generated? key = some k := beq_iff_eq.mp hfound ▸ hd k hmem
      have hany : d.kernels.any (·.kernel.key == key) = true :=
        List.any_eq_true.mpr ⟨k, hmem, hfound⟩
      simp [kernel?, keep, htarget, hfind, hgenerated, hany]
    | none =>
      have hany : d.kernels.any (·.kernel.key == key) = false :=
        List.any_eq_false.mpr (List.find?_eq_none.mp hfind)
      have hgenerated := generated?_eq d key htarget
      simp only [kernel?, htarget, hfind, TileKey.generate_eq]
      cases hfinish : (Tile.generator key target d.caps).finish d.policy.capacity with
      | error e =>
        rw [hfinish] at hgenerated
        simp [keep, hgenerated, ← htarget]
      | ok code =>
        rw [hfinish] at hgenerated
        simp [keep, hgenerated, hany, ← htarget]

end Dispatcher

-- ---------------------------------------------------------------------------
-- Courses of calls
-- ---------------------------------------------------------------------------

/-- The end of a run that cannot be refused: the outcome, and what is in C. -/
def ended {γ : Type} (route : Decision) (run : Run γ Unit) (c : Array γ) : Outcome × Array γ :=
  match run.run c with
  | .ok () c => (.routed route, c)
  | .error fault c => (.stopped fault, c)

inductive Course (γ : Type) where
  | atOnce (o : Outcome)
  | plain (reference : Run γ Unit)
  /-- Tiles of a kernel, or the reference kernel without one. -/
  | tiled (key : TileKey) (route : Decision) (tiles : CachedKernel → Run γ Unit)
    (reference : Run γ Unit)

namespace Course

variable {α A B γ : Type}

def key? : Course γ → Option TileKey
  | tiled key .. => some key
  | _ => none

def reply (generated? : TileKey → Option CachedKernel) (c : Array γ) : Course γ → Outcome × Array γ
  | atOnce o => (o, c)
  | plain reference => ended .reference reference c
  | tiled key route tiles reference =>
    match generated? key with
    | some k => ended route (tiles k) c
    | none => ended .reference reference c

/-- Checks come before every course. -/
def guarded (check : Except GemmError Unit) (degenerate : Bool) (course : Course γ) : Course γ :=
  match check with
  | .error e => atOnce (.refused e)
  | .ok () => if degenerate then atOnce .degenerate else course

/-- The answer of a call that takes this course. -/
def answer (course : Course γ) (d : Dispatcher α) (q : Request α A B) (c : Array γ) :
    Dispatcher.Answer α A B γ where
  outcome := (course.reply d.generated? c).1
  c := (course.reply d.generated? c).2
  request := q
  dispatcher := course.key?.elim d d.keep

end Course

namespace Dispatcher

variable {α A B γ : Type}

theorem finish_eq (d : Dispatcher α) (q : Request α A B) (c : Array γ) (route : Decision)
    (run : Run γ Unit) :
    d.finish q c route run = ⟨(ended route run c).1, (ended route run c).2, q, d⟩ := by
  rw [finish, ended]
  cases run.run c <;> rfl

section

variable {d : Dispatcher α} {q : Request α A B} {c : Array γ}

theorem guarded_answer {check : Except GemmError Unit} {course : Course γ}
    {rest : Unit → Answer α A B γ} (h : rest () = course.answer d q c) :
    d.guarded check q c rest = (course.guarded check q.shape.degenerate).answer d q c := by
  cases check with
  | error e => rfl
  | ok u =>
    simp only [guarded, Course.guarded, h]
    split <;> rfl

theorem tiled_answer (hd : d.Valid) (key : TileKey) (route : Decision)
    (tiles : Work.Team → CachedKernel → Run γ Unit) (reference : Work.Team → Run γ Unit) :
    (match d.kernel? key with
      | (some k, d) => d.finish q c route (tiles d.team k)
      | (none, d) => d.finish q c .reference (reference d.team)) =
      (Course.tiled key route (tiles d.team) (reference d.team)).answer d q c := by
  rw [kernel?_eq hd]
  cases hgenerated : d.generated? key <;>
    simp [finish_eq, Course.answer, Course.reply, Course.key?, hgenerated]

end

-- ---------------------------------------------------------------------------
-- The course of each call
-- ---------------------------------------------------------------------------

section

variable (ar : Arith α) (d : Dispatcher α)

def floatCourse (isa : Isa) (q : Request α A B) (a b : Operand α) : Course α :=
  let key := TileKey.float isa (ar.isZero q.beta) q.bias.isSome
  .tiled key (.generated isa) (fun k => Blocked.float ar d.team k.fused key.rows q a b)
    (Reference.float ar d.team q a b)

def sgemmCourse (q : Request α α α) (size : Nat) : Course α :=
  .guarded (q.outline ar .f32 .f32 .f32 size).check q.shape.degenerate <|
    match Decision.sgemm d.caps d.jit false q.forceNocopy with
    | .generated isa => d.floatCourse ar isa q (q.floatA .f32 id) (q.floatB .f32 id)
    | _ => .plain (Reference.float ar d.team q (q.floatA .f32 id) (q.floatB .f32 id))

def bf16Course (q : Request α BFloat16 BFloat16) (size : Nat) : Course α :=
  .guarded (q.outline ar .bf16 .bf16 .f32 size).check q.shape.degenerate <|
    match Decision.bf16? d.caps d.jit with
    | some (.generated isa) =>
      d.floatCourse ar isa q (q.floatA .bf16 ar.ofBf16) (q.floatB .bf16 ar.ofBf16)
    | _ => .atOnce (.refused (.unimplemented .bf16WithoutAvx512))

def igemmCourse (kind : IntKind B) (q : Request α Int8 B) (size : Nat) : Course Int32 :=
  let reference := Reference.int ar d.team q q.intA (q.intB kind)
  let decision := Decision.igemm d.caps d.jit q.shape.m q.shape.n q.zeroPoints
  let tiled (isa : Isa) (shift : Int32) : Course Int32 :=
    .tiled (.int isa) decision
      (fun _ => Blocked.int ar d.team (TileKey.int isa).rows shift q q.intA (q.intB kind)) reference
  .guarded (q.outline ar .s8 kind.elem .s32 size).checkQuantized q.shape.degenerate <|
    match decision with
    | .generated isa => tiled isa 0
    | .simplified isa => tiled isa kind.shift
    | _ => .plain reference

end

section

variable {ar : Arith α} {d : Dispatcher α}

theorem runFloat_answer (hd : d.Valid) (isa : Isa) (q : Request α A B) (a b : Operand α)
    (c : Array α) : d.runFloat ar isa q a b c = (d.floatCourse ar isa q a b).answer d q c :=
  tiled_answer hd _ _ (fun team k => Blocked.float ar team k.fused _ q a b)
    fun team => Reference.float ar team q a b

theorem sgemm_answer (hd : d.Valid) (hvendor : d.vendor = none) (q : Request α α α)
    (c : Array α) : d.sgemm ar q c = (d.sgemmCourse ar q c.size).answer d q c := by
  refine guarded_answer ?_
  simp only [hvendor, Option.isSome_none]
  cases Decision.sgemm d.caps d.jit false q.forceNocopy with
  | generated isa => exact runFloat_answer hd isa q _ _ c
  | vendor | simplified isa | reference => exact finish_eq d q c _ _

theorem bf16_answer (hd : d.Valid) (q : Request α BFloat16 BFloat16) (c : Array α) :
    d.bf16 ar q c = (d.bf16Course ar q c.size).answer d q c := by
  refine guarded_answer ?_
  cases hdecision : Decision.bf16? d.caps d.jit with
  | none => rfl
  | some decision =>
    cases decision with
    | generated isa => exact runFloat_answer hd isa q _ _ c
    | vendor | simplified isa | reference => rfl

theorem igemm_answer (hd : d.Valid) (hvendor : d.vendor = none) (e : Quantized α B)
    (q : Request α Int8 B) (c : Array Int32) :
    d.igemm ar e q c = (d.igemmCourse ar e.kind q c.size).answer d q c := by
  refine guarded_answer ?_
  have htiled (isa : Isa) (route : Decision) (shift : Int32) :=
    tiled_answer (q := q) (c := c) hd (.int isa) route
      (fun team _ => Blocked.int ar team (TileKey.int isa).rows shift q q.intA (q.intB e.kind))
      fun team => Reference.int ar team q q.intA (q.intB e.kind)
  simp only [hvendor, builtinIgemm]
  cases Decision.igemm d.caps d.jit q.shape.m q.shape.n q.zeroPoints with
  | generated isa => exact htiled isa _ 0
  | simplified isa => exact htiled isa _ e.kind.shift
  | vendor | reference => exact finish_eq d q c _ _

end

end Dispatcher

end JitGemm
