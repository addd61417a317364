import JitGemm.Proofs.Arm64.Framing
import JitGemm.Proofs.Generator.Branches
import JitGemm.Proofs.Generator.Nesting
import JitGemm.Proofs.X86.Saving

/-!
# Frames on a processor

The code before a body puts aside what the caller relies on, and the code behind the body gives it
back and returns, whatever the body has done to registers and to the working stack. Both processors
are seen through one record, so that what follows says the same of each.
-/

namespace JitGemm

open Code (Buffer Label)
open X86 (Memory Span Apart)

-- ---------------------------------------------------------------------------
-- Processors
-- ---------------------------------------------------------------------------

/-- A processor as frames see it. -/
structure Processor where
  State : Type
  gpr : State → Gpr → UInt64
  /-- Words of a vector register, from its low end. -/
  word : State → Vreg → Nat → UInt32
  mem : State → Memory
  sp : State → UInt64
  /-- Where the instruction that returns goes on. -/
  returnAddress : State → UInt64
  /-- From one offset of the code to another one. -/
  Runs (code : List UInt8) (p : Nat) (s : State) (q : Nat) (t : State) : Prop
  /-- Whether the next instruction returns to an address. -/
  Returns (code : List UInt8) (p : Nat) (s : State) (address : UInt64) : Prop
  /-- Whether a branch from `p` to `q` stands there, with `r` behind it. -/
  BranchAt (code : List UInt8) (p q r : Nat) : Prop

/-- Returning takes the address from the stack. -/
def X86.processor (ar : Arith UInt32) : Processor where
  State := Machine
  gpr := Machine.gpr
  word := Machine.word
  mem := Machine.mem
  sp s := s.gpr .rsp
  returnAddress s := s.mem.read64 (s.gpr .rsp)
  Runs code p s q t := Runs ar code (.at p s) (.at q t)
  Returns code p s address :=
    Config.step? ar code (.at p s) = some (.left address (s.setGpr .rsp (s.gpr .rsp + 8)))
  BranchAt := BranchAt ar

/-- Returning takes the address from the link register. -/
def Arm64.processor : Processor where
  State := Machine
  gpr := Machine.gpr
  word := Machine.lanes
  mem := Machine.mem
  sp := Machine.sp
  returnAddress s := s.gpr .lr
  Runs code p s q t := Runs code (.at p s) (.at q t)
  Returns code p s address := Config.step? code (.at p s) = some (.left address s)
  BranchAt := BranchAt

namespace Target

def processor (ar : Arith UInt32) : Target → Processor
  | aarch64 => Arm64.processor
  | _ => X86.processor ar

def linkBytes : Target → Nat
  | aarch64 => 0
  | _ => 8

end Target

namespace Processor

variable (P : Processor)

/-- From the state before a frame to the one in which its body starts. -/
structure Opened (f : Frame) (s u : P.State) : Prop where
  sp : P.sp u + UInt64.ofNat (f.reserve + f.target.saveArea) = P.sp s
  held : Holds (P.mem u) f.target (P.sp u + UInt64.ofNat f.reserve) (P.gpr s) (P.word s)
  link : ∀ x, Span (P.sp s) f.target.linkBytes x → P.mem u x = P.mem s x

/-- A body may do as it likes with everything but the stack pointer, the save area, and the return
address above it. -/
structure Spares (f : Frame) (u v : P.State) : Prop where
  sp : P.sp v = P.sp u
  mem : ∀ x, Span (P.sp u + UInt64.ofNat f.reserve) (f.target.saveArea + f.target.linkBytes) x →
    P.mem v x = P.mem u x

/-- What a caller relies on. -/
structure Restored (t : Target) (s w : P.State) : Prop where
  sp : P.sp w = P.sp s
  gprs : ∀ r ∈ t.keptGprs, P.gpr w r = P.gpr s r
  words : ∀ v ∈ t.savedVregs, ∀ j < t.vregSaveBytes / 4, P.word w v j = P.word s v j

section

variable {P : Processor} {f : Frame} {s u v : P.State}

/-- After the body the save area still holds what the caller had. -/
theorem Opened.held_after (hu : P.Opened f s u) (hv : P.Spares f u v) :
    Holds (P.mem v) f.target (P.sp v + UInt64.ofNat f.reserve) (P.gpr s) (P.word s) := by
  rw [hv.sp]
  exact hu.held.congr fun x hx => hv.mem x (hx.mono (Nat.le_add_right _ _))

theorem Opened.link_after (hu : P.Opened f s u) (hv : P.Spares f u v) (x : UInt64)
    (hx : Span (P.sp s) f.target.linkBytes x) : P.mem v x = P.mem s x := by
  refine (hv.mem x ?_).trans (hu.link x hx)
  rw [← hu.sp, UInt64.ofNat_add, ← UInt64.add_assoc] at hx
  exact hx.shift (Nat.le_refl _)

end

end Processor

-- ---------------------------------------------------------------------------
-- x86-64
-- ---------------------------------------------------------------------------

section

variable (ar : Arith UInt32) (pre post : List UInt8) {t : Target} {n : Nat}

namespace X86

theorem opened (ht : t.isX86) (hn : n < 2 ^ 31) (vex : Bool) (s : Machine) :
    let bytes := blockBytes ((⟨t, n⟩ : Frame).preambleX86 vex)
    ∃ u, Runs ar (pre ++ bytes ++ post) (.at pre.length s) (.at (pre.length + bytes.length) u) ∧
      (processor ar).Opened ⟨t, n⟩ s u := by
  let low := s.gpr .rsp - UInt64.ofNat t.saveArea
  have htop : s.gpr .rsp = low + UInt64.ofNat t.saveArea := (UInt64.sub_add_cancel _ _).symm
  obtain ⟨u, hblock, hsp, hheld, hmem⟩ :=
    Frame.opens_frame ar ht vex low (Frame.saveArea_eq ht ▸ htop)
  have hlow : u.gpr .rsp + UInt64.ofNat n = low := by
    rw [hsp, disp_ofNat hn, UInt64.sub_add_cancel]
  refine ⟨u, runs_block pre post (Frame.decodes_opening ht vex) hblock, ?_, ?_, fun x hx => ?_⟩
  · show u.gpr .rsp + UInt64.ofNat (n + t.saveArea) = s.gpr .rsp
    rw [UInt64.ofNat_add, ← UInt64.add_assoc, hlow, htop]
  · show Holds u.mem t (u.gpr .rsp + UInt64.ofNat n) s.gpr s.word
    rw [hlow]
    exact hheld
  · have hbound : t.saveArea + t.linkBytes ≤ 2 ^ 64 := by cases t <;> decide
    have hapart := span_apart low (k := 0) (l := t.saveArea) (m := t.saveArea) (n := t.linkBytes)
      (by omega) hbound
    refine hmem x fun hx' => hapart x (by simpa [Frame.saveArea_eq ht] using hx') ?_
    rw [← htop]
    exact hx

theorem closed (ht : t.isX86) (hn : n < 2 ^ 31) (vex : Bool) {s u v : Machine}
    (hu : (processor ar).Opened ⟨t, n⟩ s u) (hv : (processor ar).Spares ⟨t, n⟩ u v) :
    let code := pre ++ blockBytes ((⟨t, n⟩ : Frame).postambleX86 vex) ++ post
    ∃ q w, Runs ar code (.at pre.length v) (.at q w) ∧
      (processor ar).Returns code q w (s.mem.read64 (s.gpr .rsp)) ∧
      (processor ar).Restored t s w := by
  obtain ⟨es, w, hes, hblock, hsp, hmem, hgprs, hwords⟩ :=
    Frame.closes_frame ar ht vex hn (hu.held_after hv)
  have hdecodes : ∀ e ∈ es, e.Decodes := fun e he =>
    Frame.decodes_closing (n := n) ht vex e (hes ▸ List.mem_append_left _ he)
  have hruns := runs_block pre (Instr.ret.chunk.bytes ++ post) hdecodes hblock
  have hret := step_ret ar (pre ++ blockBytes es) post w
  have hcode : pre ++ blockBytes ((⟨t, n⟩ : Frame).postambleX86 vex) ++ post =
      pre ++ blockBytes es ++ (Instr.ret.chunk.bytes ++ post) := by
    rw [hes]
    simp [Emission.bytes]
  have htop : w.gpr .rsp = s.gpr .rsp := by
    have hbody : v.gpr .rsp = u.gpr .rsp := hv.sp
    have hopened : u.gpr .rsp + UInt64.ofNat (n + t.saveArea) = s.gpr .rsp := hu.sp
    rw [hsp, UInt64.add_assoc, ← UInt64.ofNat_add, ← Frame.saveArea_eq ht, hbody, hopened]
  have haddress : w.mem.read64 (w.gpr .rsp) = s.mem.read64 (s.gpr .rsp) := by
    have hlink : t.linkBytes = 8 := by
      cases t with
      | sysV | win64 => rfl
      | aarch64 => cases ht
    rw [htop, hmem]
    exact Memory.read64_congr fun x hx => hu.link_after hv x (hlink ▸ hx)
  refine ⟨_, w, hcode ▸ hruns, ?_, htop, hgprs, hwords⟩
  rw [hcode, ← haddress, ← List.append_assoc, ← List.length_append]
  exact hret

end X86

-- ---------------------------------------------------------------------------
-- AArch64
-- ---------------------------------------------------------------------------

namespace Arm64

theorem bytes_map (is : List Instr) : JitGemm.blockBytes (is.map .arm) = blockBytes is := by
  simp [JitGemm.blockBytes, blockBytes, List.flatMap_map, Emission.bytes]

theorem opened (hn : n ≤ 4095) (s : Machine) :
    let bytes := JitGemm.blockBytes ((⟨.aarch64, n⟩ : Frame).preambleArm)
    ∃ u, Runs (pre ++ bytes ++ post) (.at pre.length s) (.at (pre.length + bytes.length) u) ∧
      processor.Opened ⟨.aarch64, n⟩ s u := by
  let low := s.sp - UInt64.ofNat 160
  have htop : s.sp = low + UInt64.ofNat 160 := (UInt64.sub_add_cancel _ _).symm
  obtain ⟨himm, hword⟩ := Frame.imm_ofNat hn
  obtain ⟨u, hblock, hsp, hheld, hmem⟩ := Frame.opens_frameArm himm htop
  have hdecodes : ∀ i ∈ Frame.saving ++ Frame.reserving n, i.Decodes :=
    List.forall_mem_append.mpr ⟨Frame.decodes_saving, (Frame.reserves himm s).2⟩
  have hlow : u.sp + UInt64.ofNat n = low := by rw [hsp, hword, UInt64.sub_add_cancel]
  intro bytes
  have hbytes : bytes = blockBytes (Frame.saving ++ Frame.reserving n) := by
    rw [← bytes_map, ← Frame.preambleArm_eq]
  refine ⟨u, hbytes ▸ runs_block pre post hdecodes hblock, ?_, ?_, fun x hx => ?_⟩
  · show u.sp + UInt64.ofNat (n + 160) = s.sp
    rw [UInt64.ofNat_add, ← UInt64.add_assoc, hlow, htop]
  · show Holds u.mem .aarch64 (u.sp + UInt64.ofNat n) s.gpr s.lanes
    rw [hlow]
    exact hheld
  · exact absurd hx (Nat.not_lt_zero _)

theorem closed (hn : n ≤ 4095) {s u v : Machine} (hu : processor.Opened ⟨.aarch64, n⟩ s u)
    (hv : processor.Spares ⟨.aarch64, n⟩ u v) :
    let code := pre ++ JitGemm.blockBytes ((⟨.aarch64, n⟩ : Frame).postambleArm) ++ post
    ∃ q w, Runs code (.at pre.length v) (.at q w) ∧ processor.Returns code q w (s.gpr .lr) ∧
      processor.Restored .aarch64 s w := by
  obtain ⟨w, hblock, hsp, hmem, hgprs, hwords⟩ := Frame.closes_frameArm hn (hu.held_after hv)
  have hdecodes : ∀ i ∈ Frame.releasing n ++ Frame.restoring, i.Decodes :=
    List.forall_mem_append.mpr ⟨(Frame.releases hn v).2, Frame.decodes_restoring⟩
  have hruns := runs_block pre (Instr.ret.chunk.bytes ++ post) hdecodes hblock
  have hret := step_ret (pre ++ blockBytes (Frame.releasing n ++ Frame.restoring)) post w
  have hcode : pre ++ JitGemm.blockBytes ((⟨.aarch64, n⟩ : Frame).postambleArm) ++ post =
      pre ++ blockBytes (Frame.releasing n ++ Frame.restoring) ++
        (Instr.ret.chunk.bytes ++ post) := by
    rw [Frame.postambleArm_eq, bytes_map]
    simp [blockBytes]
  have hlink : w.gpr .lr = s.gpr .lr := hgprs .lr (by decide)
  refine ⟨_, w, hcode ▸ hruns, ?_, ?_, hgprs, hwords⟩
  · rw [hcode, ← hlink, ← List.append_assoc, ← List.length_append]
    exact hret
  · have hbody : v.sp = u.sp := hv.sp
    have hopened : u.sp + UInt64.ofNat (n + 160) = s.sp := hu.sp
    show w.sp = s.sp
    rw [hsp, UInt64.add_assoc, ← UInt64.ofNat_add, hbody, hopened]

end Arm64

-- ---------------------------------------------------------------------------
-- Both
-- ---------------------------------------------------------------------------

namespace Frame

variable {f : Frame}

theorem opened (hfit : f.Encodable) (vex : Bool) (s : (f.target.processor ar).State) :
    let bytes := blockBytes (f.preamble vex)
    ∃ u, (f.target.processor ar).Runs (pre ++ bytes ++ post) pre.length s
        (pre.length + bytes.length) u ∧
      (f.target.processor ar).Opened f s u := by
  rcases f with ⟨t, n⟩
  cases t with
  | aarch64 => exact Arm64.opened pre post hfit s
  | sysV | win64 => exact X86.opened ar pre post rfl (Nat.lt_succ_of_le hfit) vex s

theorem closed (hfit : f.Encodable) (vex : Bool) {s u v : (f.target.processor ar).State}
    (hu : (f.target.processor ar).Opened f s u) (hv : (f.target.processor ar).Spares f u v) :
    let code := pre ++ blockBytes (f.postamble vex) ++ post
    ∃ q w, (f.target.processor ar).Runs code pre.length v q w ∧
      (f.target.processor ar).Returns code q w ((f.target.processor ar).returnAddress s) ∧
      (f.target.processor ar).Restored f.target s w := by
  rcases f with ⟨t, n⟩
  cases t with
  | aarch64 => exact Arm64.closed pre post hfit hu hv
  | sysV | win64 => exact X86.closed ar pre post rfl (Nat.lt_succ_of_le hfit) vex hu hv

end Frame

end

end JitGemm
