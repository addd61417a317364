import JitGemm.Generator.Framing
import JitGemm.Proofs.X86.Blocks

/-!
# Frames at run time

What the code that opens and closes a frame does to the machine. Opening moves the stack pointer
down and writes only below where it was; closing moves it back up and writes nothing.
-/

namespace JitGemm

open X86 (Machine Span Apart)

variable (ar : Arith UInt32)

-- ---------------------------------------------------------------------------
-- What a block changes
-- ---------------------------------------------------------------------------

/-- The stack pointer has moved to `top`, and besides it nothing has changed but memory inside a
span. -/
structure Opens (low : UInt64) (n : Nat) (top : UInt64) (s t : Machine) : Prop where
  top : t.gpr .rsp = top
  gpr : ∀ r, r ≠ .rsp → t.gpr r = s.gpr r
  vec : t.vec = s.vec
  mem : ∀ x, ¬ Span low n x → t.mem x = s.mem x

theorem Opens.trans {low top top' : UInt64} {n : Nat} {s t u : Machine}
    (h : Opens low n top s t) (h' : Opens low n top' t u) : Opens low n top' s u where
  top := h'.top
  gpr r hr := (h'.gpr r hr).trans (h.gpr r hr)
  vec := h'.vec.trans h.vec
  mem x hx := (h'.mem x hx).trans (h.mem x hx)

theorem Opens.mono {low low' top : UInt64} {n n' : Nat} {s t : Machine}
    (h : Opens low n top s t) (hmn : ∀ x, Span low n x → Span low' n' x) :
    Opens low' n' top s t :=
  { h with mem := fun x hx => h.mem x fun hx' => hx (hmn x hx') }

namespace Frame

-- ---------------------------------------------------------------------------
-- Opening
-- ---------------------------------------------------------------------------

theorem add_eight (low : UInt64) (n : Nat) :
    low + UInt64.ofNat (8 * (n + 1)) - 8 = low + UInt64.ofNat (8 * n) := by
  rw [Nat.mul_add, UInt64.ofNat_add, ← UInt64.add_assoc]
  exact UInt64.add_sub_cancel _ _

/-- Pushing fills the words from `low` on, downwards. -/
theorem opens_pushes (low : UInt64) (rs : List Gpr) {s : Machine}
    (htop : s.gpr .rsp = low + UInt64.ofNat (8 * rs.length)) :
    ∃ t, s.block ar (rs.map fun r => .x86 (.push r)) = some t ∧
      Opens low (8 * rs.length) low s t := by
  induction rs generalizing s with
  | nil => exact ⟨s, rfl, by simpa using htop, fun _ _ => rfl, rfl, fun _ _ => rfl⟩
  | cons r rs ih =>
    have hnext : (s.push (s.gpr r)).gpr .rsp = low + UInt64.ofNat (8 * rs.length) := by
      have hpush : (s.push (s.gpr r)).gpr .rsp = s.gpr .rsp - 8 := by simp [Machine.push]
      rw [hpush, htop, List.length_cons, add_eight]
    obtain ⟨t, hblock, hopens⟩ := ih hnext
    refine ⟨t, by simpa [Machine.block, Machine.exec] using hblock, ?_⟩
    have hpush : Opens low (8 * (r :: rs).length) (low + UInt64.ofNat (8 * rs.length)) s
        (s.push (s.gpr r)) := by
      refine ⟨hnext, fun q hq => by simp [Machine.push, hq], rfl, fun x hx => ?_⟩
      refine X86.Memory.write64_outside fun hx' => hx ?_
      rw [htop, List.length_cons, add_eight] at hx'
      exact hx'.shift (Nat.le_refl _)
    exact hpush.trans (hopens.mono fun x hx => hx.mono (Nat.mul_le_mul_left 8 (Nat.le_succ _)))

theorem exec_slotStore (vex : Bool) (v : Vreg) (i : Nat) (s : Machine) :
    ∃ e, slotAccess movdquStore vex v i = .x86 e ∧
      s.exec ar e = some (s.storeVec .legacy (s.address (.past .rsp (Int32.ofNat (16 * i))))
        (s.vec v)) := by
  cases vex with
  | true => exact ⟨_, rfl, rfl⟩
  | false => exact ⟨_, rfl, rfl⟩

/-- Storing to the slots from the stack pointer up, the first of them number `i`. -/
theorem opens_slots (vex : Bool) (vs : List Vreg) (i : Nat) (hbound : 16 * (i + vs.length) < 2 ^ 31)
    (s : Machine) :
    ∃ t, s.block ar ((vs.zipIdx i).map fun (v, i) => slotAccess movdquStore vex v i) = some t ∧
      Opens (s.gpr .rsp + UInt64.ofNat (16 * i)) (16 * vs.length) (s.gpr .rsp) s t := by
  induction vs generalizing i s with
  | nil => exact ⟨s, rfl, rfl, fun _ _ => rfl, rfl, fun _ _ => rfl⟩
  | cons v vs ih =>
    rw [List.length_cons] at hbound ⊢
    obtain ⟨e, he, hexec⟩ := exec_slotStore ar vex v i s
    rw [s.address_past .rsp (by omega)] at hexec
    obtain ⟨t, hblock, hopens⟩ := ih (i + 1) (by omega)
      (s.storeVec .legacy (s.gpr .rsp + UInt64.ofNat (16 * i)) (s.vec v))
    refine ⟨t, by simpa [Machine.block, he, hexec] using hblock, ?_⟩
    have hstore : Opens (s.gpr .rsp + UInt64.ofNat (16 * i)) (16 * (vs.length + 1)) (s.gpr .rsp) s
        (s.storeVec .legacy (s.gpr .rsp + UInt64.ofNat (16 * i)) (s.vec v)) := by
      refine ⟨rfl, fun _ _ => rfl, rfl, fun x hx => ?_⟩
      rw [Machine.storeVec_mem, X86.Memory.writeWords_outside]
      exact fun hx' => hx (hx'.mono (by simp only [X86.Form.legacy]; omega))
    refine hstore.trans (hopens.mono fun x hx => ?_)
    rw [Machine.storeVec_gpr, Nat.mul_succ, ← X86.offset_add] at hx
    exact hx.shift (by omega)

/-- Moving the stack pointer down by a constant. -/
theorem opens_sub (low : UInt64) {n k : Nat} (hn : n < 2 ^ 31) {s : Machine}
    (htop : s.gpr .rsp = low + UInt64.ofNat (k + n)) :
    ∃ t, s.block ar [.x86 (.subImm .rsp (Int32.ofNat n))] = some t ∧
      Opens low 0 (low + UInt64.ofNat k) s t := by
  refine ⟨_, rfl, ?_, fun r hr => ?_, rfl, fun _ _ => rfl⟩
  · rw [Machine.setResult_gpr, if_pos rfl, htop, X86.disp_ofNat hn, UInt64.ofNat_add,
      ← UInt64.add_assoc, UInt64.add_sub_cancel]
  · rw [Machine.setResult_gpr, if_neg hr]

-- ---------------------------------------------------------------------------
-- The whole frame
-- ---------------------------------------------------------------------------

/-- Bytes that a frame without working stack takes below the return address. -/
def saved (t : Target) : Nat := t.vregArea + 8 * t.savedGprs.length

/-- What opening a frame without working stack does. -/
theorem opens_preamble {t : Target} (ht : t.isX86) (vex : Bool) (low : UInt64) {s : Machine}
    (htop : s.gpr .rsp = low + UInt64.ofNat (saved t)) :
    ∃ u, s.block ar ((⟨t, 0⟩ : Frame).preambleX86 vex) = some u ∧
      Opens low (saved t) low s u := by
  cases t with
  | sysV =>
    obtain ⟨u, hblock, hopens⟩ := opens_pushes ar low Target.sysV.savedGprs htop
    exact ⟨u, by simpa [preambleX86, Target.vregArea, Target.savedVregs] using hblock, hopens⟩
  | win64 =>
    obtain ⟨a, hsub, ha⟩ := opens_sub ar low (n := 160) (k := 64) (by decide) htop
    obtain ⟨b, hslots, hb⟩ := opens_slots ar vex Target.win64.savedVregs 0 (by decide) a
    rw [ha.top] at hb
    obtain ⟨u, hpushes, hu⟩ := opens_pushes ar low Target.win64.savedGprs hb.top
    refine ⟨u, ?_, ?_⟩
    · have hfirst := Machine.block_append (Machine.block_append hsub hslots) hpushes
      simpa [preambleX86, Target.vregArea, Target.vregSaveBytes, slotAccesses,
        Target.savedVregs] using hfirst
    · refine (ha.mono fun x hx => hx.mono (Nat.zero_le _)).trans ((hb.mono fun x hx => ?_).trans
        (hu.mono fun x hx => hx.mono (by decide)))
      rw [X86.offset_add] at hx
      exact hx.shift (by decide)
  | aarch64 => cases ht

-- ---------------------------------------------------------------------------
-- Closing
-- ---------------------------------------------------------------------------

/-- The stack pointer has moved up by `n`, and memory is as it was. -/
structure Closes (n : Nat) (s t : Machine) : Prop where
  top : t.gpr .rsp = s.gpr .rsp + UInt64.ofNat n
  mem : t.mem = s.mem

theorem Closes.trans {m n : Nat} {s t u : Machine} (h : Closes m s t) (h' : Closes n t u) :
    Closes (m + n) s u where
  top := by rw [h'.top, h.top, X86.offset_add]
  mem := h'.mem.trans h.mem

theorem closes_pops (rs : List Gpr) (hrs : Gpr.rsp ∉ rs) (s : Machine) :
    ∃ t, s.block ar (rs.map fun r => .x86 (.pop r)) = some t ∧ Closes (8 * rs.length) s t := by
  induction rs generalizing s with
  | nil => exact ⟨s, rfl, by simp, rfl⟩
  | cons r rs ih =>
    rw [List.mem_cons, not_or] at hrs
    obtain ⟨t, hblock, hcloses⟩ := ih hrs.2 (s.pop r)
    refine ⟨t, by simpa [Machine.block, Machine.exec] using hblock, ?_⟩
    have hpop : Closes 8 s (s.pop r) := ⟨by simp [Machine.pop, hrs.1], rfl⟩
    have hall := hpop.trans hcloses
    rwa [Nat.add_comm, ← Nat.mul_succ] at hall

theorem exec_slotLoad (vex : Bool) (v : Vreg) (i : Nat) (s : Machine) :
    ∃ e t, slotAccess movdquLoad vex v i = .x86 e ∧ s.exec ar e = some t ∧ Closes 0 s t := by
  cases vex with
  | true => exact ⟨_, _, rfl, rfl, by simp, rfl⟩
  | false => exact ⟨_, _, rfl, rfl, by simp, rfl⟩

theorem closes_slots (vex : Bool) (vs : List Vreg) (i : Nat) (s : Machine) :
    ∃ t, s.block ar ((vs.zipIdx i).map fun (v, i) => slotAccess movdquLoad vex v i) = some t ∧
      Closes 0 s t := by
  induction vs generalizing i s with
  | nil => exact ⟨s, rfl, by simp, rfl⟩
  | cons v vs ih =>
    obtain ⟨e, u, he, hexec, hu⟩ := exec_slotLoad ar vex v i s
    obtain ⟨t, hblock, hcloses⟩ := ih (i + 1) u
    exact ⟨t, by simpa [Machine.block, he, hexec] using hblock, hu.trans hcloses⟩

theorem closes_add {n : Nat} (hn : n < 2 ^ 31) (s : Machine) :
    ∃ t, s.block ar [.x86 (.addImm .rsp (Int32.ofNat n))] = some t ∧ Closes n s t := by
  refine ⟨_, rfl, ?_, rfl⟩
  rw [Machine.setResult_gpr, if_pos rfl, X86.disp_ofNat hn]

theorem closes_upper (vex : Bool) (s : Machine) :
    ∃ t, s.block ar (if vex then [.x86 .vzeroupper] else []) = some t ∧ Closes 0 s t := by
  cases vex with
  | true => exact ⟨_, rfl, by simp [Machine.clearUpper], rfl⟩
  | false => exact ⟨s, rfl, by simp, rfl⟩

/-- What closing a frame without working stack does before it returns. -/
theorem closes_postamble {t : Target} (ht : t.isX86) (vex : Bool) (s : Machine) :
    ∃ es u, (⟨t, 0⟩ : Frame).postambleX86 vex = es ++ [.x86 .ret] ∧ s.block ar es = some u ∧
      Closes (saved t) s u := by
  cases t with
  | sysV =>
    obtain ⟨a, hpops, ha⟩ :=
      closes_pops ar Target.sysV.savedGprs.reverse (by decide) s
    obtain ⟨u, hupper, hu⟩ := closes_upper ar vex a
    exact ⟨_, u, by simp [postambleX86, Target.vregArea, Target.savedVregs],
      Machine.block_append hpops hupper, ha.trans hu⟩
  | win64 =>
    obtain ⟨a, hpops, ha⟩ :=
      closes_pops ar Target.win64.savedGprs.reverse (by decide) s
    obtain ⟨b, hslots, hb⟩ := closes_slots ar vex Target.win64.savedVregs 0 a
    obtain ⟨c, hadd, hc⟩ := closes_add ar (n := 160) (by decide) b
    obtain ⟨u, hupper, hu⟩ := closes_upper ar vex c
    have hblock := Machine.block_append hpops
      (Machine.block_append hslots (Machine.block_append hadd hupper))
    refine ⟨_, u, ?_, hblock, ha.trans (hb.trans (hc.trans hu))⟩
    simp [postambleX86, Target.vregArea, Target.savedVregs, Target.vregSaveBytes, slotAccesses]
  | aarch64 => cases ht

-- ---------------------------------------------------------------------------
-- Bytes
-- ---------------------------------------------------------------------------

theorem decodes_slot {op : X86.Opcode} (hop : op = movdquLoad ∨ op = movdquStore) (vex : Bool)
    {v : Vreg} (hv : v.num ≤ 15) (i : Nat) : (slotAccess op vex v i).Decodes := by
  have hkind : ∃ k, op.kind? = some k ∧ (none : Option UInt8).isSome = k.wantsImm := by
    rcases hop with rfl | rfl
    · exact ⟨_, rfl, rfl⟩
    · exact ⟨_, rfl, rfl⟩
  obtain ⟨k, hk, himm⟩ := hkind
  cases vex with
  | true => exact X86.decodes_vex hk himm false false hv (by decide) rfl rfl
  | false => exact X86.decodes_sse hk himm hv rfl rfl

theorem decodes_slots {op : X86.Opcode} (hop : op = movdquLoad ∨ op = movdquStore) (vex : Bool)
    {t : Target} (ht : t.isX86) : ∀ e ∈ slotAccesses op vex t, e.Decodes := by
  have hnum : ∀ v ∈ t.savedVregs, v.num ≤ 15 := by cases t <;> decide
  intro e he
  obtain ⟨⟨v, i⟩, hvi, rfl⟩ := List.mem_map.mp he
  exact decodes_slot hop vex (hnum v (List.fst_mem_of_mem_zipIdx hvi)) i

theorem saved_num {t : Target} (ht : t.isX86) : ∀ r ∈ t.savedGprs, r.num ≤ 15 := by
  cases t <;> first | decide | cases ht

theorem decodes_preamble {t : Target} (ht : t.isX86) (vex : Bool) :
    ∀ e ∈ (⟨t, 0⟩ : Frame).preambleX86 vex, e.Decodes := by
  intro e he
  simp only [preambleX86, List.mem_append, ↓reduceIte, List.not_mem_nil, or_false] at he
  rcases he with he | he
  · split at he
    · cases he
    · rcases List.mem_cons.mp he with rfl | he
      · exact .integer (by decide : Gpr.rsp.num ≤ 15)
      · exact decodes_slots (.inr rfl) vex ht e he
  · obtain ⟨r, hr, rfl⟩ := List.mem_map.mp he
    exact .integer (saved_num ht r hr)

theorem decodes_postamble {t : Target} (ht : t.isX86) (vex : Bool) :
    ∀ e ∈ (⟨t, 0⟩ : Frame).postambleX86 vex, e.Decodes := by
  intro e he
  simp only [postambleX86, List.mem_append, ↓reduceIte, List.not_mem_nil, false_or] at he
  rcases he with ((he | he) | he) | he
  · obtain ⟨r, hr, rfl⟩ := List.mem_map.mp he
    exact .integer (saved_num ht r (List.mem_reverse.mp hr))
  · split at he
    · cases he
    · rcases List.mem_append.mp he with he | he
      · exact decodes_slots (.inl rfl) vex ht e he
      · obtain rfl := List.mem_singleton.mp he
        exact .integer (by decide : Gpr.rsp.num ≤ 15)
  · cases vex with
    | false => cases he
    | true =>
      obtain rfl := List.mem_singleton.mp he
      exact .inr (.inl rfl)
  · obtain rfl := List.mem_singleton.mp he
    exact .integer trivial

end Frame

end JitGemm
