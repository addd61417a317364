import JitGemm.Proofs.Generator.SaveArea
import JitGemm.Proofs.X86.Framing

/-!
# What x86-64 frames keep

The code that opens a frame leaves in the save area what the registers held, and the code that
closes it puts back what it finds there.
-/

namespace JitGemm

open X86 (Machine Memory Span Apart laneOf)

variable {ar : Arith UInt32}

def X86.Machine.word (s : Machine) (v : Vreg) (j : Nat) : UInt32 := s.vec v (laneOf j)

theorem X86.Machine.block_append_inv {es fs : List Emission} {s u : Machine}
    (h : s.block ar (es ++ fs) = some u) :
    ∃ t, s.block ar es = some t ∧ t.block ar fs = some u := by
  induction es generalizing s with
  | nil => exact ⟨s, rfl, h⟩
  | cons e es ih =>
    cases e with
    | x86 i =>
      obtain ⟨s', hs, hrest⟩ := Option.bind_eq_some_iff.mp h
      obtain ⟨t, ht, hu⟩ := ih hrest
      exact ⟨t, by simp [Machine.block, hs, ht], hu⟩
    | arm i => cases h
    | fail e => cases h

namespace Frame

-- ---------------------------------------------------------------------------
-- Saving
-- ---------------------------------------------------------------------------

theorem holds_pushes {low : UInt64} {rs : List Gpr} (hrs : Gpr.rsp ∉ rs)
    (hbound : 8 * rs.length < 2 ^ 64) {s t : Machine}
    (htop : s.gpr .rsp = low + UInt64.ofNat (8 * rs.length))
    (h : s.block ar (rs.map fun r => .x86 (.push r)) = some t) :
    HoldsGprs t.mem s.gpr low rs.reverse := by
  induction rs generalizing s with
  | nil => trivial
  | cons r rs ih =>
    rw [List.length_cons] at htop hbound
    rw [List.mem_cons, not_or] at hrs
    have hslot : s.gpr .rsp - 8 = low + UInt64.ofNat (8 * rs.length) := by rw [htop, add_eight]
    have hnext : (s.push (s.gpr r)).gpr .rsp = low + UInt64.ofNat (8 * rs.length) := by
      simp [Machine.push, hslot]
    obtain ⟨t', hblock, hopens⟩ := opens_pushes ar low rs hnext
    have htail : (s.push (s.gpr r)).block ar (rs.map fun r => .x86 (.push r)) = some t := by
      simpa [Machine.block, Machine.exec] using h
    obtain rfl : t' = t := Option.some.inj (hblock.symm.trans htail)
    rw [List.reverse_cons, holdsGprs_append]
    refine ⟨(ih hrs.2 (by omega) hnext htail).congr (fun _ _ => rfl) fun q hq => ?_, ?_, trivial⟩
    · have hne : q ≠ .rsp := by
        rintro rfl
        exact hrs.2 (List.mem_reverse.mp hq)
      simp [Machine.push, hne]
    · -- the words below are written later
      have hapart := X86.span_apart low (k := 0) (l := 8 * rs.length) (m := 8 * rs.length) (n := 8)
        (by omega) (by omega)
      have hkept : t'.mem.read64 (low + UInt64.ofNat (8 * rs.length)) =
          (s.push (s.gpr r)).mem.read64 (low + UInt64.ofNat (8 * rs.length)) :=
        X86.Memory.read64_congr fun x hx =>
          hopens.mem x fun hx' => hapart x (by simpa using hx') hx
      rw [List.length_reverse, hkept]
      show (s.mem.write64 (s.gpr .rsp - 8) (s.gpr r)).read64 _ = _
      rw [hslot, X86.Memory.read64_write64]

theorem next_slot (p : UInt64) (i : Nat) :
    p + UInt64.ofNat (16 * i) + UInt64.ofNat 16 = p + UInt64.ofNat (16 * (i + 1)) := by
  rw [X86.offset_add, Nat.mul_succ]

theorem holds_slots {vex : Bool} {vs : List Vreg} {i : Nat}
    (hbound : 16 * (i + vs.length) < 2 ^ 31) {s t : Machine}
    (h : s.block ar ((vs.zipIdx i).map fun (v, i) => slotAccess movdquStore vex v i) = some t) :
    HoldsVregs t.mem 16 s.word (s.gpr .rsp + UInt64.ofNat (16 * i)) vs := by
  induction vs generalizing i s with
  | nil => trivial
  | cons v vs ih =>
    rw [List.length_cons] at hbound
    obtain ⟨e, he, hexec⟩ := exec_slotStore ar vex v i s
    rw [s.address_past .rsp (by omega)] at hexec
    let s' := s.storeVec .legacy (s.gpr .rsp + UInt64.ofNat (16 * i)) (s.vec v)
    have htail : s'.block ar ((vs.zipIdx (i + 1)).map fun (v, i) =>
        slotAccess movdquStore vex v i) = some t := by
      simp only [List.zipIdx_cons, List.map_cons, he, Machine.block, hexec, Option.bind_some] at h
      exact h
    obtain ⟨t', hblock, hopens⟩ := opens_slots ar vex vs (i + 1) (by omega) s'
    obtain rfl : t' = t := Option.some.inj (hblock.symm.trans htail)
    have hbehind : s.gpr .rsp + UInt64.ofNat (16 * i) + UInt64.ofNat 16 =
        s'.gpr .rsp + UInt64.ofNat (16 * (i + 1)) := next_slot _ i
    refine ⟨fun j hj => ?_, ?_⟩
    · -- the slots behind are written later
      have hapart := X86.span_apart (s.gpr .rsp) (k := 16 * i + 4 * j) (l := 16 * (i + 1)) (m := 4)
        (n := 16 * vs.length) (by omega) (by omega)
      have hkept : t'.mem.read32 (s.gpr .rsp + UInt64.ofNat (16 * i) + UInt64.ofNat (4 * j)) =
          s'.mem.read32 (s.gpr .rsp + UInt64.ofNat (16 * i) + UInt64.ofNat (4 * j)) := by
        refine X86.Memory.read32_congr fun x hx => hopens.mem x fun hx' => ?_
        rw [X86.offset_add] at hx
        exact hapart x hx hx'
      rw [hkept]
      exact X86.Memory.read32_writeWords (n := 4) (f := fun i => s.vec v (laneOf i)) (by omega)
        (by decide)
    · rw [hbehind]
      exact ih (s := s') (by omega) htail

-- ---------------------------------------------------------------------------
-- Restoring
-- ---------------------------------------------------------------------------

theorem restores_pops {rs : List Gpr} (hrs : Gpr.rsp ∉ rs) (hdistinct : rs.Nodup)
    {value : Gpr → UInt64} {s t : Machine} (hheld : HoldsGprs s.mem value (s.gpr .rsp) rs)
    (h : s.block ar (rs.map fun r => .x86 (.pop r)) = some t) :
    (∀ r ∈ rs, t.gpr r = value r) ∧ (∀ r ∉ rs, r ≠ .rsp → t.gpr r = s.gpr r) ∧
      t.vec = s.vec := by
  induction rs generalizing s with
  | nil =>
    obtain rfl := Option.some.inj h
    simp
  | cons r rs ih =>
    rw [List.mem_cons, not_or] at hrs
    rw [List.nodup_cons] at hdistinct
    have htail : (s.pop r).block ar (rs.map fun r => .x86 (.pop r)) = some t := by
      simpa [Machine.block, Machine.exec] using h
    have htop : (s.pop r).gpr .rsp = s.gpr .rsp + UInt64.ofNat 8 := by
      simp [Machine.pop, hrs.1]
    obtain ⟨htaken, hkept, hvec⟩ := ih hrs.2 hdistinct.2 (htop ▸ hheld.2) htail
    refine ⟨List.forall_mem_cons.mpr ⟨?_, htaken⟩, fun q hq hne => ?_, hvec⟩
    · -- the pops that follow take other registers
      rw [hkept r hdistinct.1 (Ne.symm hrs.1), ← hheld.1]
      simp [Machine.pop]
    · rw [List.mem_cons, not_or] at hq
      rw [hkept q hq.2 hne]
      simp [Machine.pop, hq.1, hne]

variable (ar) in
theorem exec_slotLoad_eq (vex : Bool) (v : Vreg) (i : Nat) (s : Machine) :
    ∃ e f, slotAccess movdquLoad vex v i = .x86 e ∧ f.lanes = 4 ∧
      s.exec ar e = some (s.setVec f v.num
        (s.lanesAt (s.address (.past .rsp (Int32.ofNat (16 * i)))))) := by
  cases vex with
  | true => exact ⟨_, .vex false, rfl, rfl, rfl⟩
  | false => exact ⟨_, .legacy, rfl, rfl, rfl⟩

theorem restores_slots {vex : Bool} {vs : List Vreg} (hdistinct : vs.Nodup) {i : Nat}
    (hbound : 16 * (i + vs.length) < 2 ^ 31) {word : Vreg → Nat → UInt32} {s t : Machine}
    (hheld : HoldsVregs s.mem 16 word (s.gpr .rsp + UInt64.ofNat (16 * i)) vs)
    (h : s.block ar ((vs.zipIdx i).map fun (v, i) => slotAccess movdquLoad vex v i) = some t) :
    (∀ v ∈ vs, ∀ j < 4, t.word v j = word v j) ∧ (∀ v ∉ vs, t.word v = s.word v) ∧
      t.gpr = s.gpr := by
  induction vs generalizing i s with
  | nil =>
    obtain rfl := Option.some.inj h
    simp
  | cons v vs ih =>
    rw [List.nodup_cons] at hdistinct
    rw [List.length_cons] at hbound
    obtain ⟨e, f, he, hf, hexec⟩ := exec_slotLoad_eq ar vex v i s
    rw [s.address_past .rsp (by omega)] at hexec
    let s' := s.setVec f v.num (s.lanesAt (s.gpr .rsp + UInt64.ofNat (16 * i)))
    have htail : s'.block ar ((vs.zipIdx (i + 1)).map fun (v, i) =>
        slotAccess movdquLoad vex v i) = some t := by
      simp only [List.zipIdx_cons, List.map_cons, he, Machine.block, hexec, Option.bind_some] at h
      exact h
    have hbehind : s.gpr .rsp + UInt64.ofNat (16 * i) + UInt64.ofNat 16 =
        s'.gpr .rsp + UInt64.ofNat (16 * (i + 1)) := next_slot _ i
    obtain ⟨hrestored, hkept, hgpr⟩ :=
      ih (s := s') hdistinct.2 (by omega) (hbehind ▸ hheld.2) htail
    refine ⟨List.forall_mem_cons.mpr ⟨fun j hj => ?_, hrestored⟩, fun q hq => ?_, hgpr⟩
    · rw [hkept v hdistinct.1, ← hheld.1 j hj]
      have hlane : (laneOf j).val = j := Nat.mod_eq_of_lt (by omega)
      simp [s', Machine.word, Machine.setVec, hf, hlane, hj, Machine.lanesAt]
    · rw [List.mem_cons, not_or] at hq
      rw [hkept q hq.2]
      funext j
      have hne : q ≠ ⟨v.num⟩ := hq.1
      simp [s', Machine.word, Machine.setVec, hne]

theorem word_upper {vex : Bool} {s t : Machine}
    (h : s.block ar (if vex then [.x86 .vzeroupper] else []) = some t) :
    t.gpr = s.gpr ∧ ∀ v, ∀ j < 4, t.word v j = s.word v j := by
  cases vex with
  | true =>
    obtain rfl := Option.some.inj h
    refine ⟨rfl, fun v j hj => ?_⟩
    have hlane : (laneOf j).val = j := Nat.mod_eq_of_lt (by omega)
    have hlow : ¬ 4 ≤ j := by omega
    simp [Machine.word, Machine.clearUpper, hlane, hlow]
  | false =>
    obtain rfl := Option.some.inj h
    exact ⟨rfl, fun _ _ _ => rfl⟩

-- ---------------------------------------------------------------------------
-- The whole frame
-- ---------------------------------------------------------------------------

theorem saveArea_eq {t : Target} (ht : t.isX86) : t.saveArea = saved t := by
  cases t with
  | sysV | win64 => rfl
  | aarch64 => cases ht

theorem holds_preamble {t : Target} (ht : t.isX86) {vex : Bool} {low : UInt64} {s u : Machine}
    (htop : s.gpr .rsp = low + UInt64.ofNat (saved t))
    (h : s.block ar ((⟨t, 0⟩ : Frame).preambleX86 vex) = some u) :
    Holds u.mem t low s.gpr s.word := by
  cases t with
  | sysV =>
    have hpushes : s.block ar (Target.sysV.savedGprs.map fun r => .x86 (.push r)) = some u := by
      simpa [preambleX86, Target.vregArea, Target.savedVregs] using h
    exact ⟨holds_pushes (by decide) (by decide) htop hpushes, trivial⟩
  | win64 =>
    obtain ⟨a, hsub, ha⟩ := opens_sub ar low (n := 160) (k := 64) (by decide) htop
    obtain ⟨b, hslots, hb⟩ := opens_slots ar vex Target.win64.savedVregs 0 (by decide) a
    have htop' : b.gpr .rsp = low + UInt64.ofNat (8 * Target.win64.savedGprs.length) :=
      hb.top.trans ha.top
    obtain ⟨u', hpushes, hu⟩ := opens_pushes ar low Target.win64.savedGprs htop'
    have hall : s.block ar ((⟨.win64, 0⟩ : Frame).preambleX86 vex) = some u' := by
      have := Machine.block_append (Machine.block_append hsub hslots) hpushes
      simpa [preambleX86, Target.vregArea, Target.vregSaveBytes, slotAccesses,
        Target.savedVregs] using this
    obtain rfl : u' = u := Option.some.inj (hall.symm.trans h)
    have hgprs := holds_pushes (by decide) (by decide) htop' hpushes
    have hvregs : HoldsVregs b.mem 16 a.word (low + UInt64.ofNat 64) Target.win64.savedVregs := by
      have := holds_slots (by decide) hslots
      rw [ha.top] at this
      simpa using this
    have hapart : Apart (Span low 64) (Span (low + UInt64.ofNat 64) 160) := by
      have := X86.span_apart low (k := 0) (l := 64) (m := 64) (n := 160) (by decide) (by decide)
      simpa using this
    -- the pushes lie below the slots
    have hvregs' : HoldsVregs u'.mem 16 s.word (low + UInt64.ofNat 64) Target.win64.savedVregs := by
      refine hvregs.congr (fun x hx => hu.mem x fun hx' => ?_) fun v _ => ?_
      · exact hapart x hx' hx
      · funext j
        rw [Machine.word, Machine.word, ha.vec]
    refine ⟨hgprs.congr (fun _ _ => rfl) fun r hr => ?_, hvregs'⟩
    have hne : r ≠ .rsp := by
      rintro rfl
      exact absurd hr (by decide)
    rw [hb.gpr r hne, ha.gpr r hne]
  | aarch64 => cases ht

/-- What is put back before the return. -/
theorem restores_postamble {t : Target} (ht : t.isX86) {vex : Bool} {es : List Emission}
    (hes : (⟨t, 0⟩ : Frame).postambleX86 vex = es ++ [.x86 .ret]) {value : Gpr → UInt64}
    {word : Vreg → Nat → UInt32} {s u : Machine} (hheld : Holds s.mem t (s.gpr .rsp) value word)
    (h : s.block ar es = some u) :
    (∀ r ∈ t.keptGprs, u.gpr r = value r) ∧
      ∀ v ∈ t.savedVregs, ∀ j < t.vregSaveBytes / 4, u.word v j = word v j := by
  have hupper : ∀ {a : Machine}, a.block ar (if vex then [.x86 .vzeroupper] else []) = some u →
      u.gpr = a.gpr ∧ ∀ v, ∀ j < 4, u.word v j = a.word v j := word_upper
  cases t with
  | sysV =>
    have hes' : es = Target.sysV.savedGprs.reverse.map (fun r => Emission.x86 (.pop r)) ++
        if vex then [.x86 .vzeroupper] else [] := by
      refine List.append_cancel_right (hes.symm.trans ?_)
      simp [postambleX86, Target.vregArea, Target.savedVregs]
    obtain ⟨a, hpops, hrest⟩ := Machine.block_append_inv (hes' ▸ h)
    obtain ⟨htaken, -, -⟩ := restores_pops (by decide) (by decide) hheld.gprs hpops
    exact ⟨fun r hr => ((hupper hrest).1 ▸ htaken r hr), by simp [Target.savedVregs]⟩
  | win64 =>
    -- pops, then loads from the slots, then the stack pointer, then the upper halves
    have hes' : es = Target.win64.savedGprs.reverse.map (fun r => Emission.x86 (.pop r)) ++
        (slotAccesses movdquLoad vex .win64 ++ ([.x86 (.addImm .rsp (Int32.ofNat 160))] ++
          if vex then [.x86 .vzeroupper] else [])) := by
      refine List.append_cancel_right (hes.symm.trans ?_)
      simp [postambleX86, Target.vregArea, Target.savedVregs, Target.vregSaveBytes]
    obtain ⟨a, hpops, hrest⟩ := Machine.block_append_inv (hes' ▸ h)
    obtain ⟨b, hslots, hrest⟩ := Machine.block_append_inv hrest
    obtain ⟨c, hadd, hrest⟩ := Machine.block_append_inv hrest
    obtain ⟨hgpr, hword⟩ := hupper hrest
    obtain ⟨a', hpops', ha⟩ := closes_pops ar Target.win64.savedGprs.reverse (by decide) s
    obtain rfl : a' = a := Option.some.inj (hpops'.symm.trans hpops)
    obtain ⟨htaken, -, -⟩ := restores_pops (by decide) (by decide) hheld.gprs hpops
    have hvregs : HoldsVregs a'.mem 16 word (a'.gpr .rsp + UInt64.ofNat (16 * 0))
        Target.win64.savedVregs := by
      rw [Nat.mul_zero, ha.top, X86.offset_add, ha.mem]
      exact hheld.vregs
    obtain ⟨hrestored, -, hkept⟩ := restores_slots (by decide) (by decide) hvregs hslots
    have hc : c = b.setResult .rsp (b.gpr .rsp + (Int32.ofNat 160).toInt64.toUInt64) :=
      (Option.some.inj hadd).symm
    refine ⟨fun r hr => ?_, fun v hv j hj => ?_⟩
    · have hne : r ≠ .rsp := by
        rintro rfl
        exact absurd hr (by decide)
      rw [hgpr, hc, Machine.setResult_gpr, if_neg hne, hkept]
      exact htaken r hr
    · have hj' : j < 4 := hj
      rw [hword v j hj', hc]
      exact hrestored v hv j hj'
  | aarch64 => cases ht

-- ---------------------------------------------------------------------------
-- Frames with working stack
-- ---------------------------------------------------------------------------

theorem preambleX86_eq (t : Target) (n : Nat) (vex : Bool) :
    (⟨t, n⟩ : Frame).preambleX86 vex = (⟨t, 0⟩ : Frame).preambleX86 vex ++
      if n = 0 then [] else [.x86 (.subImm .rsp (Int32.ofNat n))] := by
  simp [preambleX86]

theorem postambleX86_eq (t : Target) (n : Nat) (vex : Bool) :
    (⟨t, n⟩ : Frame).postambleX86 vex =
      (if n = 0 then [] else [.x86 (.addImm .rsp (Int32.ofNat n))]) ++
        (⟨t, 0⟩ : Frame).postambleX86 vex := by
  simp [postambleX86]

variable {t : Target} {n : Nat}

variable (ar) in
/-- Opening a frame saves what it preserves above the working stack, which is as large as 32 bits
with a sign say. -/
theorem opens_frame (ht : t.isX86) (vex : Bool) (low : UInt64) {s : Machine}
    (htop : s.gpr .rsp = low + UInt64.ofNat (saved t)) :
    ∃ u, s.block ar ((⟨t, n⟩ : Frame).preambleX86 vex) = some u ∧
      u.gpr .rsp = low - (Int32.ofNat n).toInt64.toUInt64 ∧ Holds u.mem t low s.gpr s.word ∧
      ∀ x, ¬ Span low (saved t) x → u.mem x = s.mem x := by
  obtain ⟨a, hsave, ha⟩ := opens_preamble ar ht vex low htop
  have hheld := holds_preamble ht htop hsave
  rw [preambleX86_eq]
  by_cases hzero : n = 0
  · subst hzero
    exact ⟨a, by simpa using hsave, ha.top.trans (UInt64.sub_zero low).symm, hheld, ha.mem⟩
  · have hsub : a.block ar [.x86 (.subImm .rsp (Int32.ofNat n))] =
        some (a.setResult .rsp (a.gpr .rsp - (Int32.ofNat n).toInt64.toUInt64)) := rfl
    rw [if_neg hzero]
    refine ⟨_, Machine.block_append hsave hsub, ?_, hheld, ha.mem⟩
    rw [Machine.setResult_gpr, if_pos rfl, ha.top]

variable (ar) in
/-- Closing a frame puts back what the save area holds. -/
theorem closes_frame (ht : t.isX86) (vex : Bool) (hn : n < 2 ^ 31) {value : Gpr → UInt64}
    {word : Vreg → Nat → UInt32} {s : Machine}
    (hheld : Holds s.mem t (s.gpr .rsp + UInt64.ofNat n) value word) :
    ∃ es u, (⟨t, n⟩ : Frame).postambleX86 vex = es ++ [.x86 .ret] ∧ s.block ar es = some u ∧
      u.gpr .rsp = s.gpr .rsp + UInt64.ofNat n + UInt64.ofNat (saved t) ∧ u.mem = s.mem ∧
      (∀ r ∈ t.keptGprs, u.gpr r = value r) ∧
      ∀ v ∈ t.savedVregs, ∀ j < t.vregSaveBytes / 4, u.word v j = word v j := by
  have hrelease : ∃ a, s.block ar (if n = 0 then [] else [.x86 (.addImm .rsp (Int32.ofNat n))]) =
      some a ∧ Closes n s a := by
    by_cases hzero : n = 0
    · exact ⟨s, by simp [hzero, Machine.block], by simp [hzero], rfl⟩
    · rw [if_neg hzero]
      exact closes_add ar hn s
  obtain ⟨a, hadd, ha⟩ := hrelease
  obtain ⟨es, u, hes, hblock, hu⟩ := closes_postamble ar ht vex a
  have hheld' : Holds a.mem t (a.gpr .rsp) value word := by rwa [ha.mem, ha.top]
  refine ⟨_ ++ es, u, ?_, Machine.block_append hadd hblock, ?_, hu.mem.trans ha.mem,
    restores_postamble ht hes hheld' hblock⟩
  · rw [postambleX86_eq, hes, List.append_assoc]
  · rw [hu.top, ha.top]

theorem decodes_opening (ht : t.isX86) (vex : Bool) :
    ∀ e ∈ (⟨t, n⟩ : Frame).preambleX86 vex, e.Decodes := by
  rw [preambleX86_eq]
  refine List.forall_mem_append.mpr ⟨decodes_preamble ht vex, fun e he => ?_⟩
  split at he
  · cases he
  · obtain rfl := List.mem_singleton.mp he
    exact .integer (by decide : Gpr.rsp.num ≤ 15)

theorem decodes_closing (ht : t.isX86) (vex : Bool) :
    ∀ e ∈ (⟨t, n⟩ : Frame).postambleX86 vex, e.Decodes := by
  rw [postambleX86_eq]
  refine List.forall_mem_append.mpr ⟨fun e he => ?_, decodes_postamble ht vex⟩
  split at he
  · cases he
  · obtain rfl := List.mem_singleton.mp he
    exact .integer (by decide : Gpr.rsp.num ≤ 15)

end Frame

end JitGemm
