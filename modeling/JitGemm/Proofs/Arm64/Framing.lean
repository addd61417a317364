import JitGemm.Generator.Framing
import JitGemm.Proofs.Arm64.Machine
import JitGemm.Proofs.Generator.SaveArea
import JitGemm.Proofs.X86.Machine

/-!
# AArch64 frames at run time

The code that opens a frame moves the stack pointer below a save area, fills that with pairs of
registers and reserves the working stack under it. The code that closes the frame loads the pairs
back in the same places.
-/

namespace JitGemm

open Arm64 (Machine Instr)
open X86 (Memory Span Apart)

namespace Arm64.Machine

theorem offset_ofNat {n : Nat} (h : n < 2 ^ 31) : offset (Int32.ofNat n) = UInt64.ofNat n :=
  X86.disp_ofNat h

/-- Two words written behind one another. -/
def withWords (s : Machine) (a w w' : UInt64) : Machine :=
  { s with mem := (s.mem.write64 a w).write64 (a + 8) w' }

theorem setBase_sp (s : Machine) (w : UInt64) : s.setBase .sp w = { s with sp := w } := rfl

theorem base_sp (s : Machine) : s.base .sp = s.sp := rfl

theorem reg_eq {s : Machine} {r : Gpr} (h : r ≠ .sp) : s.reg r = s.gpr r := if_neg h

theorem setReg_eq {s : Machine} {r : Gpr} (h : r ≠ .sp) (w : UInt64) :
    s.setReg r w = s.setGpr r w := if_neg h

end Arm64.Machine

/-- The registers of pairs, in the order in which they lie in memory. -/
def flat {α : Type} (ps : List (α × α)) : List α := ps.flatMap fun p => [p.1, p.2]

@[simp] theorem flat_nil {α : Type} : flat ([] : List (α × α)) = [] := rfl

@[simp] theorem flat_cons {α : Type} (p : α × α) (ps : List (α × α)) :
    flat (p :: ps) = p.1 :: p.2 :: flat ps := rfl

namespace Frame

-- ---------------------------------------------------------------------------
-- Storing pairs
-- ---------------------------------------------------------------------------

/-- Only memory inside a span has changed. -/
structure Stores (low : UInt64) (n : Nat) (s t : Machine) : Prop where
  sp : t.sp = s.sp
  gpr : t.gpr = s.gpr
  vec : t.vec = s.vec
  mem : ∀ x, ¬ Span low n x → t.mem x = s.mem x

theorem Stores.trans {low : UInt64} {m n : Nat} {s t u : Machine}
    (h : Stores low m s t) (h' : Stores (low + UInt64.ofNat m) n t u) : Stores low (m + n) s u where
  sp := h'.sp.trans h.sp
  gpr := h'.gpr.trans h.gpr
  vec := h'.vec.trans h.vec
  mem x hx := (h'.mem x fun hx' => hx (hx'.shift (Nat.le_refl _))).trans
    (h.mem x fun hx' => hx (hx'.mono (Nat.le_add_right _ _)))

section

variable {α : Type} {value : Gpr → UInt64} {vec : Vreg → Fin 4 → UInt32}
  (one : Memory → UInt64 → α → Prop) (all : Memory → UInt64 → List α → Prop)

/-- Instructions that fill sixteen bytes each, from low to high addresses; `one` is what each of
them leaves there, and `all` what the row of them does. -/
theorem stores_row (b : Nat) (instr : α → Nat → Instr) {ps : List α}
    (hstep : ∀ p ∈ ps, ∀ (i : Nat) (s : Machine), i < 32 → s.gpr = value → s.vec = vec →
      ∃ s', s.exec (instr p i) = some s' ∧ Stores (s.sp + UInt64.ofNat (b + 16 * i)) 16 s s' ∧
        one s'.mem (s.sp + UInt64.ofNat (b + 16 * i)) p)
    (hone : ∀ {m m' a p}, one m a p → (∀ x, Span a 16 x → m' x = m x) → one m' a p)
    (hnil : ∀ m a, all m a [])
    (hcons : ∀ {m a p ps}, one m a p → all m (a + UInt64.ofNat 16) ps → all m a (p :: ps))
    {i : Nat} (hbound : i + ps.length ≤ 32) {s : Machine} (hgpr : s.gpr = value)
    (hvec : s.vec = vec) :
    ∃ t, s.block ((ps.zipIdx i).map fun (p, i) => instr p i) = some t ∧
      Stores (s.sp + UInt64.ofNat (b + 16 * i)) (16 * ps.length) s t ∧
      all t.mem (s.sp + UInt64.ofNat (b + 16 * i)) ps := by
  induction ps generalizing i s with
  | nil => exact ⟨s, rfl, ⟨rfl, rfl, rfl, fun _ _ => rfl⟩, hnil _ _⟩
  | cons p ps ih =>
    rw [List.length_cons] at hbound ⊢
    obtain ⟨hp, hps⟩ := List.forall_mem_cons.mp hstep
    obtain ⟨s', hexec, hfirst, hheld⟩ := hp i s (by omega) hgpr hvec
    obtain ⟨t, hblock, hrest, hall⟩ := ih hps (i := i + 1) (by omega) (hfirst.gpr.trans hgpr)
      (hfirst.vec.trans hvec)
    have hbehind : s'.sp + UInt64.ofNat (b + 16 * (i + 1)) =
        s.sp + UInt64.ofNat (b + 16 * i) + UInt64.ofNat 16 := by
      rw [X86.offset_add, hfirst.sp]
      rfl
    rw [hbehind] at hrest hall
    have hapart : Apart (Span (s.sp + UInt64.ofNat (b + 16 * i)) 16)
        (Span (s.sp + UInt64.ofNat (b + 16 * i) + UInt64.ofNat 16) (16 * ps.length)) := by
      have := X86.span_apart (s.sp + UInt64.ofNat (b + 16 * i)) (k := 0) (l := 16) (m := 16)
        (n := 16 * ps.length) (by decide) (by omega)
      simpa using this
    refine ⟨t, by simp [Machine.block, hexec, hblock], ?_, ?_⟩
    · rw [Nat.mul_succ, Nat.add_comm (16 * ps.length)]
      exact hfirst.trans hrest
    · exact hcons (hone hheld fun x hx => hrest.mem x fun hx' => hapart x hx hx') hall

end

theorem write_pair (m : Memory) (a w w' : UInt64) :
    ((m.write64 a w).write64 (a + 8) w').read64 a = w ∧
      ((m.write64 a w).write64 (a + 8) w').read64 (a + UInt64.ofNat 8) = w' ∧
      ∀ x, ¬ Span a 16 x → (m.write64 a w).write64 (a + 8) w' x = m x := by
  have hapart : Apart (Span (a + 8) 8) (Span a 8) := by
    have := X86.span_apart a (k := 0) (l := 8) (m := 8) (n := 8) (by decide) (by decide)
    exact Apart.symm (by simpa using this)
  refine ⟨?_, X86.Memory.read64_write64 _ _ _, fun x hx => ?_⟩
  · rw [X86.Memory.read64_write64_apart hapart, X86.Memory.read64_write64]
  · have hhigh : ¬ Span (a + 8) 8 x := fun hx' => hx (Span.shift (k := 8) hx' (by decide))
    have hlow : ¬ Span a 8 x := fun hx' => hx (hx'.mono (by decide))
    exact (X86.Memory.write64_outside hhigh).trans (X86.Memory.write64_outside hlow)

theorem write_halves (m : Memory) (a : UInt64) (f f' : Nat → UInt32) :
    (∀ j < 2, ((m.writeWords a 2 f).writeWords (a + 8) 2 f').read32
        (a + UInt64.ofNat (4 * j)) = f j) ∧
      (∀ j < 2, ((m.writeWords a 2 f).writeWords (a + 8) 2 f').read32
        (a + UInt64.ofNat 8 + UInt64.ofNat (4 * j)) = f' j) ∧
      ∀ x, ¬ Span a 16 x → (m.writeWords a 2 f).writeWords (a + 8) 2 f' x = m x := by
  refine ⟨fun j hj => ?_, fun j hj => ?_, fun x hx => ?_⟩
  · have hapart : Apart (Span (a + 8) 8) (Span (a + UInt64.ofNat (4 * j)) 4) :=
      Apart.symm (X86.span_apart a (k := 4 * j) (l := 8) (by omega) (by decide))
    rw [X86.Memory.read32_writeWords_apart hapart, X86.Memory.read32_writeWords hj (by decide)]
  · exact X86.Memory.read32_writeWords hj (by decide)
  · have hhigh : ¬ Span (a + 8) 8 x := fun hx' => hx (Span.shift (k := 8) hx' (by decide))
    have hlow : ¬ Span a 8 x := fun hx' => hx (hx'.mono (by decide))
    exact (X86.Memory.writeWords_outside hhigh).trans (X86.Memory.writeWords_outside hlow)

theorem holdsGprs_pair {m : Memory} {value : Gpr → UInt64} {a : UInt64} {r r' : Gpr}
    {rs : List Gpr} :
    HoldsGprs m value a (r :: r' :: rs) ↔
      HoldsGprs m value a [r, r'] ∧ HoldsGprs m value (a + UInt64.ofNat 16) rs := by
  have hsplit : HoldsGprs m value a ([r, r'] ++ rs) ↔
      HoldsGprs m value a [r, r'] ∧ HoldsGprs m value (a + UInt64.ofNat (8 * 2)) rs :=
    holdsGprs_append
  exact hsplit

theorem holdsVregs_pair {m : Memory} {word : Vreg → Nat → UInt32} {a : UInt64} {v v' : Vreg}
    {vs : List Vreg} :
    HoldsVregs m 8 word a (v :: v' :: vs) ↔
      HoldsVregs m 8 word a [v, v'] ∧ HoldsVregs m 8 word (a + UInt64.ofNat 16) vs := by
  have hbehind : a + UInt64.ofNat 8 + UInt64.ofNat 8 = a + UInt64.ofNat 16 := X86.offset_add a 8 8
  simp only [HoldsVregs, hbehind, and_true, and_assoc]

theorem stores_gprs (ps : List (Gpr × Gpr)) (hps : ∀ p ∈ ps, p.1 ≠ .sp ∧ p.2 ≠ .sp)
    (hbound : ps.length ≤ 32) (s : Machine) :
    ∃ t, s.block (ps.zipIdx.map fun (p, i) => .stp p.1 p.2 .sp (gprSlot i) .offset) = some t ∧
      Stores (s.sp + UInt64.ofNat 16) (16 * ps.length) s t ∧
      HoldsGprs t.mem s.gpr (s.sp + UInt64.ofNat 16) (flat ps) := by
  refine stores_row (fun m a p => HoldsGprs m s.gpr a [p.1, p.2])
    (fun m a ps => HoldsGprs m s.gpr a (flat ps)) 16
    (fun p i => .stp p.1 p.2 .sp (gprSlot i) .offset) (i := 0) (s := s) ?_ ?_ ?_ ?_ ?_ rfl rfl
  · intro p hp i s' hi hgpr _
    obtain ⟨hne, hne'⟩ := hps p hp
    have hoffset : Machine.offset (gprSlot i) = UInt64.ofNat (16 + 16 * i) :=
      Machine.offset_ofNat (by omega)
    obtain ⟨hfirst, hsecond, houtside⟩ :=
      write_pair s'.mem (s'.sp + UInt64.ofNat (16 + 16 * i)) (s.gpr p.1) (s.gpr p.2)
    have hexec : s'.exec (.stp p.1 p.2 .sp (gprSlot i) .offset) =
        some (s'.withWords (s'.sp + UInt64.ofNat (16 + 16 * i)) (s.gpr p.1) (s.gpr p.2)) := by
      simp [Machine.exec, Machine.movesItself, Machine.storePair, Machine.pairAt, hoffset,
        Machine.base_sp, Machine.setBase_sp, Machine.reg_eq hne, Machine.reg_eq hne', hgpr,
        Machine.withWords]
    exact ⟨_, hexec, ⟨rfl, rfl, rfl, houtside⟩, hfirst, hsecond, trivial⟩
  · intro m m' a p h hm
    exact h.congr hm fun _ _ => rfl
  · exact fun _ _ => trivial
  · exact fun h h' => holdsGprs_pair.mpr ⟨h, h'⟩
  · rwa [Nat.zero_add]

theorem stores_vregs (ps : List (Vreg × Vreg)) (hbound : ps.length ≤ 32) (s : Machine) :
    ∃ t, s.block (ps.zipIdx.map fun (p, i) => .stpD p.1 p.2 .sp (vregSlot .aarch64 i)) = some t ∧
      Stores (s.sp + UInt64.ofNat 96) (16 * ps.length) s t ∧
      HoldsVregs t.mem 8 s.lanes (s.sp + UInt64.ofNat 96) (flat ps) := by
  refine stores_row (fun m a p => HoldsVregs m 8 s.lanes a [p.1, p.2])
    (fun m a ps => HoldsVregs m 8 s.lanes a (flat ps)) 96
    (fun p i => .stpD p.1 p.2 .sp (vregSlot .aarch64 i)) (i := 0) (s := s) ?_ ?_ ?_ ?_ ?_ rfl rfl
  · intro p hp i s' hi _ hvec
    have hoffset : Machine.offset (vregSlot .aarch64 i) = UInt64.ofNat (96 + 16 * i) :=
      Machine.offset_ofNat (n := 96 + 16 * i) (by omega)
    have hlanes : s'.lanes = s.lanes := by
      funext v j
      rw [Machine.lanes, Machine.lanes, hvec]
    obtain ⟨hfirst, hsecond, houtside⟩ :=
      write_halves s'.mem (s'.sp + UInt64.ofNat (96 + 16 * i)) (s'.lanes p.1) (s'.lanes p.2)
    have hexec : s'.exec (.stpD p.1 p.2 .sp (vregSlot .aarch64 i)) =
        some (s'.storeHalves p.1 p.2 (s'.sp + UInt64.ofNat (96 + 16 * i))) := by
      simp [Machine.exec, hoffset, Machine.base_sp]
    rw [← hlanes]
    exact ⟨_, hexec, ⟨rfl, rfl, rfl, houtside⟩, hfirst, hsecond, trivial⟩
  · intro m m' a p h hm
    exact h.congr hm fun _ _ => rfl
  · exact fun _ _ => trivial
  · exact fun h h' => holdsVregs_pair.mpr ⟨h, h'⟩
  · rwa [Nat.zero_add]

-- ---------------------------------------------------------------------------
-- Loading pairs
-- ---------------------------------------------------------------------------

/-- Only registers have changed, and the stack pointer has not. -/
structure Loads (s t : Machine) : Prop where
  sp : t.sp = s.sp
  mem : t.mem = s.mem

theorem Loads.trans {s t u : Machine} (h : Loads s t) (h' : Loads t u) : Loads s u :=
  ⟨h'.sp.trans h.sp, h'.mem.trans h.mem⟩

theorem exec_ldp {p : Gpr × Gpr} (hsp : Gpr.sp ≠ p.1) (hsp' : Gpr.sp ≠ p.2) (hne : p.1 ≠ p.2)
    {i : Nat} (hi : i < 32) (s : Machine) :
    let a := s.sp + UInt64.ofNat (16 + 16 * i)
    s.exec (.ldp p.1 p.2 .sp (gprSlot i) .offset) =
      some ((s.setGpr p.1 (s.mem.read64 a)).setGpr p.2 (s.mem.read64 (a + 8))) := by
  have hoffset : Machine.offset (gprSlot i) = UInt64.ofNat (16 + 16 * i) :=
    Machine.offset_ofNat (by omega)
  simp [Machine.exec, Machine.movesItself, Machine.loadPair, Machine.pairAt, hoffset,
    Machine.base_sp, Machine.setBase_sp, Machine.setReg_eq (Ne.symm hsp),
    Machine.setReg_eq (Ne.symm hsp'), hne]

theorem loads_gprs {value : Gpr → UInt64} (ps : List (Gpr × Gpr)) (hps : Gpr.sp ∉ flat ps)
    (hdistinct : (flat ps).Nodup) {i : Nat} (hbound : i + ps.length ≤ 32) {s : Machine}
    (hheld : HoldsGprs s.mem value (s.sp + UInt64.ofNat (16 + 16 * i)) (flat ps)) :
    ∃ t, s.block ((ps.zipIdx i).map fun (p, i) => .ldp p.1 p.2 .sp (gprSlot i) .offset) = some t ∧
      Loads s t ∧ t.vec = s.vec ∧ (∀ r ∈ flat ps, t.gpr r = value r) ∧
      ∀ r ∉ flat ps, t.gpr r = s.gpr r := by
  induction ps generalizing i s with
  | nil => exact ⟨s, rfl, ⟨rfl, rfl⟩, rfl, by simp, fun _ _ => rfl⟩
  | cons p ps ih =>
    rw [List.length_cons] at hbound
    rw [flat_cons] at hdistinct hheld hps ⊢
    simp only [List.nodup_cons, List.mem_cons, not_or] at hdistinct hps
    obtain ⟨⟨hne, hp⟩, hp', hdistinct⟩ := hdistinct
    obtain ⟨hsp, hsp', hps⟩ := hps
    obtain ⟨⟨hfirst, hsecond, -⟩, hrest⟩ := holdsGprs_pair.mp hheld
    let s' := (s.setGpr p.1 (value p.1)).setGpr p.2 (value p.2)
    have hexec : s.exec (.ldp p.1 p.2 .sp (gprSlot i) .offset) = some s' := by
      rw [exec_ldp hsp hsp' hne (by omega), hfirst]
      exact congrArg (fun w => some ((s.setGpr p.1 (value p.1)).setGpr p.2 w)) hsecond
    have hbehind : s.sp + UInt64.ofNat (16 + 16 * i) + UInt64.ofNat 16 =
        s'.sp + UInt64.ofNat (16 + 16 * (i + 1)) := X86.offset_add _ _ _
    obtain ⟨t, hblock, hloads, hvec, hloaded, hkept⟩ :=
      ih hps hdistinct (i := i + 1) (by omega) (s := s') (hbehind ▸ hrest)
    have hone : Loads s s' := ⟨rfl, rfl⟩
    refine ⟨t, by simp [Machine.block, hexec, hblock], hone.trans hloads, hvec, ?_, fun r hr => ?_⟩
    · rw [List.forall_mem_cons, List.forall_mem_cons]
      refine ⟨?_, ?_, hloaded⟩
      · rw [hkept _ hp]
        simp [s', Machine.setGpr, hne]
      · rw [hkept _ hp']
        simp [s', Machine.setGpr]
    · simp only [List.mem_cons, not_or] at hr
      rw [hkept r hr.2.2]
      simp [s', Machine.setGpr, hr.1, hr.2.1]

theorem loads_vregs {word : Vreg → Nat → UInt32} (ps : List (Vreg × Vreg))
    (hdistinct : (flat ps).Nodup) {i : Nat} (hbound : i + ps.length ≤ 32) {s : Machine}
    (hheld : HoldsVregs s.mem 8 word (s.sp + UInt64.ofNat (96 + 16 * i)) (flat ps)) :
    ∃ t, s.block ((ps.zipIdx i).map fun (p, i) => .ldpD p.1 p.2 .sp (vregSlot .aarch64 i)) =
        some t ∧
      Loads s t ∧ t.gpr = s.gpr ∧ (∀ v ∈ flat ps, ∀ j < 2, t.lanes v j = word v j) ∧
      ∀ v ∉ flat ps, t.lanes v = s.lanes v := by
  induction ps generalizing i s with
  | nil => exact ⟨s, rfl, ⟨rfl, rfl⟩, rfl, by simp, fun _ _ => rfl⟩
  | cons p ps ih =>
    rw [List.length_cons] at hbound
    rw [flat_cons] at hdistinct hheld ⊢
    simp only [List.nodup_cons, List.mem_cons, not_or] at hdistinct
    obtain ⟨⟨hne, hp⟩, hp', hdistinct⟩ := hdistinct
    obtain ⟨⟨hfirst, hsecond, -⟩, hrest⟩ := holdsVregs_pair.mp hheld
    let a := s.sp + UInt64.ofNat (96 + 16 * i)
    let s' := s.loadHalves p.1 p.2 a
    have hexec : s.exec (.ldpD p.1 p.2 .sp (vregSlot .aarch64 i)) = some s' := by
      have hoffset : Machine.offset (vregSlot .aarch64 i) = UInt64.ofNat (96 + 16 * i) :=
        Machine.offset_ofNat (n := 96 + 16 * i) (by omega)
      simp [Machine.exec, hoffset, Machine.base_sp, hne, s', a]
    have hlane : ∀ j < 2, ∀ b : UInt64, s.lanesAt b 2 (Fin.ofNat 4 j) =
        s.mem.read32 (b + UInt64.ofNat (4 * j)) := by
      intro j hj b
      have hval : (Fin.ofNat 4 j).val = j := Nat.mod_eq_of_lt (by omega)
      rw [Machine.lanesAt, hval, if_pos hj]
    have hbehind : s.sp + UInt64.ofNat (96 + 16 * i) + UInt64.ofNat 16 =
        s'.sp + UInt64.ofNat (96 + 16 * (i + 1)) := X86.offset_add _ _ _
    obtain ⟨t, hblock, hloads, hgpr, hloaded, hkept⟩ :=
      ih hdistinct (i := i + 1) (by omega) (s := s') (hbehind ▸ hrest)
    have hone : Loads s s' := ⟨rfl, rfl⟩
    refine ⟨t, by simp [Machine.block, hexec, hblock], hone.trans hloads, hgpr, ?_, fun v hv => ?_⟩
    · rw [List.forall_mem_cons, List.forall_mem_cons]
      refine ⟨fun j hj => ?_, fun j hj => ?_, hloaded⟩
      · rw [hkept _ hp, ← hfirst j hj, ← hlane j hj]
        simp [s', Machine.loadHalves, Machine.lanes, Machine.setVec, hne, a]
      · rw [hkept _ hp', ← hsecond j hj, ← hlane j hj]
        simp [s', Machine.loadHalves, Machine.lanes, Machine.setVec, a]
    · simp only [List.mem_cons, not_or] at hv
      rw [hkept v hv.2.2]
      funext j
      simp [s', Machine.loadHalves, Machine.lanes, Machine.setVec, hv.1, hv.2.1]

-- ---------------------------------------------------------------------------
-- The whole frame
-- ---------------------------------------------------------------------------

/-- The code that saves registers, before any working stack is reserved. -/
def saving : List Instr :=
  [.stp .fp .lr .sp (-saveArea) .pre, .movSp .fp .sp] ++
    ((pairs Target.aarch64.savedGprs).zipIdx.map fun (p, i) =>
      .stp p.1 p.2 .sp (gprSlot i) .offset) ++
    (pairs Target.aarch64.savedVregs).zipIdx.map fun (p, i) =>
      .stpD p.1 p.2 .sp (vregSlot .aarch64 i)

/-- The code that restores registers, after the working stack has been released. -/
def restoring : List Instr :=
  ((pairs Target.aarch64.savedVregs).zipIdx.map fun (p, i) =>
    .ldpD p.1 p.2 .sp (vregSlot .aarch64 i)) ++
  ((pairs Target.aarch64.savedGprs).zipIdx.map fun (p, i) =>
    .ldp p.1 p.2 .sp (gprSlot i) .offset) ++
  [.ldp .fp .lr .sp saveArea .post]

/-- The code that reserves working stack, if there is any. -/
def reserving (n : Nat) : List Instr :=
  if n = 0 then [] else [.subImm .sp .sp (UInt32.ofNat n)]

def releasing (n : Nat) : List Instr :=
  if n = 0 then [] else [.addImm .sp .sp (UInt32.ofNat n)]

theorem preambleArm_eq (n : Nat) :
    (⟨.aarch64, n⟩ : Frame).preambleArm = (saving ++ reserving n).map Emission.arm := by
  by_cases h : n = 0 <;> simp [preambleArm, saving, reserving, h, Function.comp_def]

theorem postambleArm_eq (n : Nat) :
    (⟨.aarch64, n⟩ : Frame).postambleArm =
      (releasing n ++ restoring ++ [Instr.ret]).map Emission.arm := by
  by_cases h : n = 0 <;> simp [postambleArm, restoring, releasing, h, Function.comp_def]

theorem decodes_saving : ∀ i ∈ saving, i.Decodes := by decide

theorem decodes_restoring : ∀ i ∈ restoring, i.Decodes := by decide

theorem exec_stp_frame {low : UInt64} {s : Machine} (hsp : s.sp = low + UInt64.ofNat 160) :
    s.exec (.stp .fp .lr .sp (-saveArea) .pre) =
      some (({ s with sp := low } : Machine).withWords low (s.gpr .fp) (s.gpr .lr)) := by
  have hback : UInt64.ofNat 160 + Machine.offset (-saveArea) = 0 := by decide
  have haddress : s.base .sp + Machine.offset (-saveArea) = low := by
    rw [Machine.base_sp, hsp, UInt64.add_assoc, hback, UInt64.add_zero]
  have hfp : s.reg .fp = s.gpr .fp := rfl
  have hlr : s.reg .lr = s.gpr .lr := rfl
  simp only [Machine.exec, Machine.movesItself, Machine.storePair, Machine.pairAt, haddress,
    Machine.setBase_sp, Machine.withWords, hfp, hlr]
  rfl

theorem saves {low : UInt64} {s : Machine} (hsp : s.sp = low + UInt64.ofNat 160) :
    ∃ u, s.block saving = some u ∧ u.sp = low ∧ Holds u.mem .aarch64 low s.gpr s.lanes ∧
      ∀ x, ¬ Span low 160 x → u.mem x = s.mem x := by
  let s' := (({ s with sp := low } : Machine).withWords low (s.gpr .fp) (s.gpr .lr)).setGpr .fp low
  have hentry : s.block [.stp .fp .lr .sp (-saveArea) .pre, .movSp .fp .sp] = some s' := by
    rw [Machine.block, exec_stp_frame hsp]
    rfl
  obtain ⟨hfp, hlr, houtside⟩ := write_pair s.mem low (s.gpr .fp) (s.gpr .lr)
  obtain ⟨a, hgprs, ha, hheld⟩ := stores_gprs (pairs Target.aarch64.savedGprs)
    (by decide) (by decide) s'
  obtain ⟨u, hvregs, hu, hheld'⟩ := stores_vregs (pairs Target.aarch64.savedVregs)
    (by decide) a
  rw [ha.sp] at hu hheld'
  have hblock := Machine.block_append (Machine.block_append hentry hgprs) hvregs
  have hbehind : low + UInt64.ofNat 16 + UInt64.ofNat (16 * 5) = low + UInt64.ofNat 96 :=
    X86.offset_add low 16 80
  have hrow : Stores (low + UInt64.ofNat 16) (16 * 5 + 16 * 4) s' u :=
    ha.trans (hbehind ▸ hu)
  -- each row is filled after the one below it
  have hlink : Apart (Span low 16) (Span (low + UInt64.ofNat 16) (16 * 5 + 16 * 4)) := by
    have := X86.span_apart low (k := 0) (l := 16) (m := 16) (n := 144) (by decide) (by decide)
    simpa using this
  have hrows : Apart (Span (low + UInt64.ofNat 16) 80) (Span (low + UInt64.ofNat 96) 64) :=
    X86.span_apart low (by decide) (by decide)
  have hfirst : HoldsGprs u.mem s.gpr low [.fp, .lr] := by
    have hwritten : HoldsGprs s'.mem s.gpr low [.fp, .lr] := ⟨hfp, hlr, trivial⟩
    exact hwritten.congr (fun x hx => hrow.mem x fun hx' => hlink x hx hx') fun _ _ => rfl
  have hsecond : HoldsGprs u.mem s.gpr (low + UInt64.ofNat 16) Target.aarch64.savedGprs := by
    refine hheld.congr (fun x hx => hu.mem x fun hx' => hrows x hx hx') fun r hr => ?_
    have hne : r ≠ .fp := by
      rintro rfl
      exact absurd hr (by decide)
    simp [s', Machine.setGpr, Machine.withWords, hne]
  have hthird : HoldsVregs u.mem 8 s.lanes (low + UInt64.ofNat 96) Target.aarch64.savedVregs := by
    refine HoldsVregs.congr hheld' (fun _ _ => rfl) fun v _ => ?_
    funext j
    rw [Machine.lanes, Machine.lanes, ha.vec]
    rfl
  refine ⟨u, hblock, hu.sp.trans ha.sp, ⟨holdsGprs_append.mpr ⟨hfirst, hsecond⟩, hthird⟩,
    fun x hx => ?_⟩
  exact (hrow.mem x fun hx' => hx (hx'.shift (by decide))).trans
    (houtside x fun hx' => hx (hx'.mono (by decide)))

theorem restores {value : Gpr → UInt64} {word : Vreg → Nat → UInt32} {s : Machine}
    (hheld : Holds s.mem .aarch64 s.sp value word) :
    ∃ u, s.block restoring = some u ∧ u.sp = s.sp + UInt64.ofNat 160 ∧ u.mem = s.mem ∧
      (∀ r ∈ Target.aarch64.keptGprs, u.gpr r = value r) ∧
      ∀ v ∈ Target.aarch64.savedVregs, ∀ j < 2, u.lanes v j = word v j := by
  obtain ⟨⟨hfp, hlr, hgprs⟩, hvregs⟩ := hheld
  have hbehind : s.sp + UInt64.ofNat 8 + UInt64.ofNat 8 = s.sp + UInt64.ofNat 16 :=
    X86.offset_add s.sp 8 8
  rw [hbehind] at hgprs
  -- loads leave memory as it is, so each row still holds what was saved when its turn comes
  obtain ⟨a, hloadV, ha, hgpr, hword, -⟩ :=
    loads_vregs (pairs Target.aarch64.savedVregs) (i := 0) (by decide) (by decide) hvregs
  obtain ⟨b, hloadG, hb, hvec, hvalue, hkept⟩ :=
    loads_gprs (pairs Target.aarch64.savedGprs) (i := 0) (s := a) (by decide) (by decide)
      (by decide) (by rw [ha.sp, ha.mem]; exact hgprs)
  let u := (({ b with sp := b.sp + UInt64.ofNat 160 } : Machine).setGpr .fp (value .fp)).setGpr .lr
    (value .lr)
  have hlast : b.block [.ldp .fp .lr .sp saveArea .post] = some u := by
    have hread : b.mem.read64 b.sp = value .fp ∧ b.mem.read64 (b.sp + 8) = value .lr := by
      rw [hb.mem, hb.sp, ha.mem, ha.sp]
      exact ⟨hfp, hlr⟩
    have hexec : b.exec (.ldp .fp .lr .sp saveArea .post) =
        some ((({ b with sp := b.sp + UInt64.ofNat 160 } : Machine).setGpr .fp
          (b.mem.read64 b.sp)).setGpr .lr (b.mem.read64 (b.sp + 8))) := rfl
    rw [Machine.block, hexec, hread.1, hread.2]
    rfl
  have hblock := Machine.block_append (Machine.block_append hloadV hloadG) hlast
  refine ⟨u, hblock, ?_, hb.mem.trans ha.mem, fun r hr => ?_, fun v hv j hj => ?_⟩
  · show b.sp + UInt64.ofNat 160 = _
    rw [hb.sp, ha.sp]
  · rcases List.mem_cons.mp hr with rfl | hr
    · rfl
    · rcases List.mem_cons.mp hr with rfl | hr
      · rfl
      · have hne : r ≠ .fp ∧ r ≠ .lr := by
          constructor
          all_goals
            rintro rfl
            exact absurd hr (by decide)
        have hu : u.gpr r = b.gpr r := by simp [u, Machine.setGpr, hne.1, hne.2]
        rw [hu]
        exact hvalue r hr
  · rw [← hword v hv j hj]
    show b.vec v _ = a.vec v _
    rw [hvec]

-- ---------------------------------------------------------------------------
-- Frames with working stack
-- ---------------------------------------------------------------------------

variable {n : Nat}

theorem imm_le_iff : UInt32.ofNat n ≤ 0xFFF ↔ n % 2 ^ 32 ≤ 4095 := by
  rw [UInt32.le_iff_toNat_le, UInt32.toNat_ofNat']
  rfl

theorem imm_ofNat (hn : n ≤ 4095) :
    UInt32.ofNat n ≤ 0xFFF ∧ (UInt32.ofNat n).toUInt64 = UInt64.ofNat n := by
  refine ⟨imm_le_iff.mpr (by omega), UInt64.toNat_inj.mp ?_⟩
  rw [UInt32.toNat_toUInt64, UInt32.toNat_ofNat', UInt64.toNat_ofNat']
  omega

theorem reserves (himm : UInt32.ofNat n ≤ 0xFFF) (s : Machine) :
    s.block (reserving n) = some { s with sp := s.sp - (UInt32.ofNat n).toUInt64 } ∧
      ∀ i ∈ reserving n, i.Decodes := by
  unfold reserving
  split
  · rename_i hzero
    simp [hzero, Machine.block]
  · constructor
    · simp [Machine.block, Machine.exec, Machine.base_sp, Machine.setBase_sp]
    · simpa using Arm64.decodes_subImm (by decide) (by decide) himm

theorem releases (hn : n ≤ 4095) (s : Machine) :
    s.block (releasing n) = some { s with sp := s.sp + UInt64.ofNat n } ∧
      ∀ i ∈ releasing n, i.Decodes := by
  obtain ⟨himm, hword⟩ := imm_ofNat hn
  unfold releasing
  split
  · rename_i hzero
    simp [hzero, Machine.block]
  · constructor
    · simp [Machine.block, Machine.exec, Machine.base_sp, Machine.setBase_sp, hword]
    · simpa using Arm64.decodes_addImm (by decide) (by decide) himm

/-- Opening a frame saves what it preserves above the working stack, which is as large as 32 bits
say. -/
theorem opens_frameArm (himm : UInt32.ofNat n ≤ 0xFFF) {low : UInt64} {s : Machine}
    (hsp : s.sp = low + UInt64.ofNat 160) :
    ∃ u, s.block (saving ++ reserving n) = some u ∧ u.sp = low - (UInt32.ofNat n).toUInt64 ∧
      Holds u.mem .aarch64 low s.gpr s.lanes ∧ ∀ x, ¬ Span low 160 x → u.mem x = s.mem x := by
  obtain ⟨a, hsave, ha, hheld, hmem⟩ := saves hsp
  exact ⟨_, Machine.block_append hsave (reserves himm a).1, by rw [ha], hheld, hmem⟩

/-- Closing a frame puts back what the save area holds. -/
theorem closes_frameArm (hn : n ≤ 4095) {value : Gpr → UInt64} {word : Vreg → Nat → UInt32}
    {s : Machine} (hheld : Holds s.mem .aarch64 (s.sp + UInt64.ofNat n) value word) :
    ∃ u, s.block (releasing n ++ restoring) = some u ∧
      u.sp = s.sp + UInt64.ofNat n + UInt64.ofNat 160 ∧ u.mem = s.mem ∧
      (∀ r ∈ Target.aarch64.keptGprs, u.gpr r = value r) ∧
      ∀ v ∈ Target.aarch64.savedVregs, ∀ j < 2, u.lanes v j = word v j := by
  obtain ⟨u, hrestore, hu⟩ :=
    restores (s := { s with sp := s.sp + UInt64.ofNat n }) hheld
  exact ⟨u, Machine.block_append (releases hn s).1 hrestore, hu⟩

end Frame

end JitGemm
