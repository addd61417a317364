import JitGemm.Generator.Scalar
import JitGemm.Proofs.Arm64.RoundTrip
import JitGemm.Proofs.Generator.Fetching
import JitGemm.Proofs.X86.Saving

/-!
# Straight-line code on general registers

What a processor makes of fetched instructions without branches, seen through one record for both
architectures, and the single operations on general registers in its terms: each leaves a value in
one register and everything else as it was, but for the flags.
-/

namespace JitGemm

open Code (le32)
open X86 (Memory)

-- ---------------------------------------------------------------------------
-- Cores
-- ---------------------------------------------------------------------------

namespace X86.Machine

variable (s : Machine)

/-- The count is taken modulo 64, and a shift by nothing leaves the flag. -/
def shiftLeft (r : Gpr) (n : UInt8) : Machine :=
  let n := n &&& 63
  if n = 0 then s else s.setResult r (s.gpr r <<< n.toUInt64)

def step? (ar : Arith UInt32) : Fetched → Option Machine
  | .x86 (.plain (.shlImm r n)) => some (s.shiftLeft r n)
  | .x86 (.plain i) => s.exec ar i
  | _ => none

end X86.Machine

/-- One fetched instruction. A word that the decoder leaves out may be a load of one word to all
lanes. -/
def Arm64.Machine.step? (s : Machine) : Fetched → Option Machine
  | .word w =>
    match decodeWord w with
    | some (.plain i) => s.exec i
    | some _ => none
    | none =>
      if bits w 10 22 = 0x135032 then
        some (s.setVec (vregAt w 0) fun _ => s.mem.read32 (s.base (gprAt w 5)))
      else none
  | _ => none

/-- A processor as straight-line code sees it. -/
structure Core where
  State : Type
  /-- On AArch64 number 31 is the stack pointer. -/
  reg : State → Gpr → UInt64
  /-- Words of a vector register, from its low end. -/
  word : State → Vreg → Nat → UInt32
  mem : State → Memory
  step? : State → Fetched → Option State

def X86.core (ar : Arith UInt32) : Core where
  State := Machine
  reg := Machine.gpr
  word := Machine.word
  mem := Machine.mem
  step? s := s.step? ar

def Arm64.core : Core where
  State := Machine
  reg := Machine.base
  word := Machine.lanes
  mem := Machine.mem
  step? := Machine.step?

def Target.core (ar : Arith UInt32) : Target → Core
  | aarch64 => Arm64.core
  | _ => X86.core ar

-- ---------------------------------------------------------------------------
-- Writing one register
-- ---------------------------------------------------------------------------

/-- Register `r` holds `w`, and nothing has changed besides but, if there is one, register `x`. -/
structure Core.Sets (K : Core) (x : Option Gpr) (r : Gpr) (w : UInt64) (s s' : K.State) :
    Prop where
  value : K.reg s' r = w
  others : ∀ q, q ≠ r → some q ≠ x → K.reg s' q = K.reg s q
  word : K.word s' = K.word s
  mem : K.mem s' = K.mem s

namespace Core.Sets

variable {K : Core} {x : Option Gpr} {c r : Gpr} {v w : UInt64} {s u u' : K.State}

theorem refl : K.Sets x r (K.reg s r) s s := ⟨rfl, fun _ _ _ => rfl, rfl, rfl⟩

theorem hide (h : K.Sets none r w s u) : K.Sets x r w s u :=
  ⟨h.value, fun q hq _ => h.others q hq (by simp), h.word, h.mem⟩

/-- What the second part reads may be what the first one wrote. -/
theorem trans (h : K.Sets x c v s u) (hc : c = r ∨ some c = x) (h' : K.Sets x r w u u') :
    K.Sets x r w s u' where
  value := h'.value
  others q hq hx := by
    have hqc : q ≠ c := by
      rintro rfl
      exact hc.elim hq hx
    rw [h'.others q hq hx, h.others q hqc hx]
  word := h'.word.trans h.word
  mem := h'.mem.trans h.mem

end Core.Sets

/-- Nothing has changed but, if there is one, register `x`. -/
structure Core.Keeps (K : Core) (x : Option Gpr) (s s' : K.State) : Prop where
  reg : ∀ q, some q ≠ x → K.reg s' q = K.reg s q
  word : K.word s' = K.word s
  mem : K.mem s' = K.mem s

theorem Core.Keeps.refl {K : Core} (x : Option Gpr) (s : K.State) : K.Keeps x s s :=
  ⟨fun _ _ => rfl, rfl, rfl⟩

theorem Core.Sets.keeps {K : Core} {r : Gpr} {w : UInt64} {s s' : K.State}
    (h : K.Sets (some r) r w s s') : K.Keeps (some r) s s' :=
  ⟨fun q hq => h.others q (fun he => hq (congrArg some he)) hq, h.word, h.mem⟩

theorem X86.sets_setGpr {ar : Arith UInt32} (s : Machine) (r : Gpr) (w : UInt64) :
    (core ar).Sets none r w s (s.setGpr r w) :=
  ⟨if_pos rfl, fun _ hq _ => if_neg hq, rfl, rfl⟩

theorem X86.sets_setResult {ar : Arith UInt32} (s : Machine) (r : Gpr) (w : UInt64) :
    (core ar).Sets none r w s (s.setResult r w) :=
  ⟨if_pos rfl, fun _ hq _ => if_neg hq, rfl, rfl⟩

namespace Arm64

theorem Machine.base_setBase (s : Machine) (r q : Gpr) (w : UInt64) :
    (s.setBase r w).base q = if q = r then w else s.base q := by
  by_cases hr : r = .sp
  · by_cases hq : q = .sp <;> simp [setBase, base, hr, hq]
  · by_cases hq : q = .sp
    · simp [setBase, setGpr, base, hr, hq, Ne.symm hr]
    · simp [setBase, setGpr, base, hr, hq]

theorem Machine.reg_eq_base {s : Machine} {r : Gpr} (hr : r ≠ .sp) : s.reg r = s.base r := by
  rw [reg, if_neg hr, base, if_neg hr]

theorem Machine.setReg_eq_setBase {s : Machine} {r : Gpr} (hr : r ≠ .sp) (w : UInt64) :
    s.setReg r w = s.setBase r w := by
  rw [setReg, if_neg hr, setBase, if_neg hr]

theorem sets_setBase (s : Machine) (r : Gpr) (w : UInt64) :
    core.Sets none r w s (s.setBase r w) where
  value := by simp [core, Machine.base_setBase]
  others q hq _ := by simp [core, Machine.base_setBase, hq]
  word := by
    unfold core Machine.setBase
    split <;> rfl
  mem := by
    unfold core Machine.setBase
    split <;> rfl

end Arm64

-- ---------------------------------------------------------------------------
-- Blocks of instructions
-- ---------------------------------------------------------------------------

/-- Everything that a machine of x86-64 runs, its core runs. -/
theorem X86.carries_block {ar : Arith UInt32} {t : Target} (ht : t.isX86) {es : List Emission}
    (hes : ∀ e ∈ es, e.Decodes) {s s' : Machine} (h : s.block ar es = some s') :
    t.Carries (core ar).step? (blockBytes es) s s' := by
  induction es generalizing s with
  | nil =>
    obtain rfl := Option.some.inj h
    exact .nil
  | cons e es ih =>
    cases e with
    | x86 i =>
      obtain ⟨u, hu, hrest⟩ := Option.bind_eq_some_iff.mp h
      rw [blockBytes_cons]
      refine .append (.one (Target.fetches_x86 ht (hes _ List.mem_cons_self)) ?_)
        (ih (fun e he => hes e (List.mem_cons_of_mem _ he)) hrest)
      cases i with
      | shlImm r n => cases hu
      | _ => exact (X86.exec_canonical s _).trans hu
    | arm i => cases h
    | fail e => cases h

namespace Arm64

theorem carries_instr {i : Instr} (hi : i.Decodes) {s s' : Machine} (h : s.exec i = some s') :
    Target.aarch64.Carries core.step? i.chunk.bytes s s' := by
  rw [← s.exec_canonical] at h
  unfold Instr.Decodes Instr.word? at hi
  split at hi
  · rename_i b0 b1 b2 b3 hbytes
    have hword : decodeWord (Code.word32 b0 b1 b2 b3) = some (.plain i.canonical) := hi
    refine .one (i := .word (Code.word32 b0 b1 b2 b3)) (.single fun rest => ?_) ?_
    · rw [hbytes]
      rfl
    · simp [core, Machine.step?, hword, h]
  · cases hi

theorem carries_block {is : List Instr} (his : ∀ i ∈ is, i.Decodes) {s s' : Machine}
    (h : s.block is = some s') : Target.aarch64.Carries core.step? (blockBytes is) s s' := by
  induction is generalizing s with
  | nil =>
    obtain rfl := Option.some.inj h
    exact .nil
  | cons i is ih =>
    obtain ⟨u, hu, hrest⟩ := Option.bind_eq_some_iff.mp h
    exact (carries_instr (his _ List.mem_cons_self) hu).append
      (ih (fun i hi => his i (List.mem_cons_of_mem _ hi)) hrest)

end Arm64

-- ---------------------------------------------------------------------------
-- Emissions that compute
-- ---------------------------------------------------------------------------

/-- The general registers of a target. -/
def Target.HasGpr (t : Target) (r : Gpr) : Prop := r.num ≤ if t.isX86 then 15 else 30

instance (t : Target) (r : Gpr) : Decidable (t.HasGpr r) := inferInstanceAs (Decidable (_ ≤ _))

theorem Target.hasGpr_scratch (t : Target) : t.HasGpr t.scratchGpr := by cases t <;> decide

/-- Emissions without fault that leave in `r` what `value` makes of the state before them, and
change nothing besides but, if there is one, register `x`. -/
structure Target.Computes (ar : Arith UInt32) (t : Target) (x : Option Gpr) (es : List Emission)
    (r : Gpr) (value : (t.core ar).State → UInt64) : Prop where
  clean : ∀ e ∈ es, e.Clean
  run : ∀ s, ∃ s', t.Carries (t.core ar).step? (blockBytes es) s s' ∧
    (t.core ar).Sets x r (value s) s s'

namespace Target.Computes

variable {ar : Arith UInt32} {t : Target} {x : Option Gpr} {es fs : List Emission} {c r : Gpr}
  {f g value : (t.core ar).State → UInt64}

theorem nil : t.Computes ar x [] r fun s => (t.core ar).reg s r :=
  ⟨by simp, fun s => ⟨s, .nil, .refl⟩⟩

theorem hide (h : t.Computes ar none es r f) : t.Computes ar x es r f :=
  ⟨h.clean, fun s => (h.run s).imp fun _ hs => ⟨hs.1, hs.2.hide⟩⟩

theorem congr (h : t.Computes ar x es r f) (hf : ∀ s, f s = g s) : t.Computes ar x es r g :=
  funext hf ▸ h

theorem append (h : t.Computes ar x es c f) (hc : c = r ∨ some c = x)
    (h' : t.Computes ar x fs r g)
    (hvalue : ∀ s u, (t.core ar).Sets x c (f s) s u → g u = value s) :
    t.Computes ar x (es ++ fs) r value where
  clean := List.forall_mem_append.mpr ⟨h.clean, h'.clean⟩
  run s := by
    obtain ⟨u, hu, hsets⟩ := h.run s
    obtain ⟨s', hs', hsets'⟩ := h'.run u
    refine ⟨s', blockBytes_append es fs ▸ hu.append hs', ?_⟩
    rw [← hvalue s u hsets]
    exact hsets.trans hc hsets'

end Target.Computes

-- ---------------------------------------------------------------------------
-- Calls
-- ---------------------------------------------------------------------------

namespace Generator

/-- The code that `g'` has beyond that of `g` takes every state to one that `post` allows. -/
def Performs (ar : Arith UInt32) (g g' : Generator)
    (post : (s s' : (g.table.target.core ar).State) → Prop) : Prop :=
  ∃ code, g'.buffer.bytes.toList = g.buffer.bytes.toList ++ code ∧
    ∀ s, ∃ s', g.table.target.run? (g.table.target.core ar).step? code s = some s' ∧ post s s'

variable {ar : Arith UInt32} {g : Generator} {es : List Emission}

theorem performs_emit {post : (s s' : (g.table.target.core ar).State) → Prop}
    (h : ∀ s, ∃ s', g.table.target.Carries (g.table.target.core ar).step? (blockBytes es) s s' ∧
      post s s') : g.Performs ar (g.emit es) post :=
  ⟨blockBytes es, g.bytes_emit es, fun s => (h s).imp fun _ hs => ⟨hs.1.run, hs.2⟩⟩

/-- Emissions that compute leave what is pending as it is. -/
theorem performs_computes {x : Option Gpr} {r : Gpr}
    {value : (g.table.target.core ar).State → UInt64}
    (h : g.table.target.Computes ar x es r value) :
    (g.emit es).buffer.error = g.buffer.error ∧
      g.Performs ar (g.emit es) fun s s' => (g.table.target.core ar).Sets x r (value s) s s' :=
  ⟨g.error_emit h.clean, performs_emit h.run⟩

/-- Code does one thing only. -/
theorem Performs.both {g' : Generator}
    {post post' : (s s' : (g.table.target.core ar).State) → Prop} (h : g.Performs ar g' post)
    (h' : g.Performs ar g' post') (s : (g.table.target.core ar).State) :
    ∃ s', post s s' ∧ post' s s' := by
  obtain ⟨code, hcode, hruns⟩ := h
  obtain ⟨code', hcode', hruns'⟩ := h'
  obtain rfl := List.append_cancel_left (hcode.symm.trans hcode')
  obtain ⟨s', hs', hpost⟩ := hruns s
  obtain ⟨s'', hs'', hpost'⟩ := hruns' s
  obtain rfl := Option.some.inj (hs'.symm.trans hs'')
  exact ⟨s', hpost, hpost'⟩

end Generator

end JitGemm
