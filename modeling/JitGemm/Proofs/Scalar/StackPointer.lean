import JitGemm.Proofs.Scalar.Accesses

/-!
# Offsets from the stack pointer on AArch64

Number 31 is the stack pointer in immediate additions and as a base, and the zero register in sums
of registers. Offsets that go through the scratch register are added in such sums: beyond the reach
of immediates they miss the stack pointer, where no guard refuses them.
-/

namespace JitGemm

-- ---------------------------------------------------------------------------
-- Calls
-- ---------------------------------------------------------------------------

/-- Calls that adjust the stack pointer, or name memory past it. -/
inductive StackCall where
  | add (offset : Int64)
  | sub (offset : Int64)
  | address (offset : Int64)
  | access (a : Access) (disp : Int32)
  deriving DecidableEq, Repr

def Generator.stackCall (g : Generator) : StackCall → Generator
  | .add offset => g.scalar (.addOffset .sp offset)
  | .sub offset => g.scalar (.subOffset .sp offset)
  | .address offset => (g.offsetAddress .sp offset).2
  | .access a disp => g.access (.past .sp disp) a

namespace StackCall

def code (t : OpTable) : StackCall → List Emission
  | add offset => t.target.addOffset .sp offset
  | sub offset => t.target.subOffset .sp offset
  | address offset => (t.target.offsetAddress .sp offset).2
  | access a disp => a.code t (.past .sp disp)

theorem stackCall_eq (g : Generator) (c : StackCall) :
    g.stackCall c = g.emit (c.code g.table) := by
  cases c with
  | access a disp => exact Access.access_eq _ _ a
  | _ => rfl

/-- What an immediate holds, or a guard refuses. Additions and subtractions turn into each other, an
address takes any displacement that is not negative, and broadcasts are the only accesses that have
no displacement of their own. -/
def InReach : StackCall → Prop
  | add offset | sub offset => -0xFFF ≤ offset ∧ offset ≤ 0xFFF
  | address offset => 0 ≤ offset ∧ offset ≤ 0x7FFFFFFF
  | access (.broadcast _) disp => 0 ≤ disp ∧ disp ≤ 0xFFF
  | access _ _ => True

/-- What a call is for, with vector registers of `n` lanes. -/
def Done (K : Core) (n : Nat) (s s' : K.State) : StackCall → Prop
  | add offset => K.Sets (some .x16) .sp (K.reg s .sp + offset.toUInt64) s s'
  | sub offset => K.Sets (some .x16) .sp (K.reg s .sp - offset.toUInt64) s s'
  | address offset =>
    K.Keeps (some .x16) s s' ∧
      K.address s' (Target.aarch64.offsetAddress .sp offset).1 = K.reg s .sp + offset.toUInt64
  | access a disp => a.Done K n (some .x16) (K.reg s .sp + disp.toInt64.toUInt64) s s'

/-- What is left of that when the stack pointer reads as zero and is not written. -/
def Missed (K : Core) (n : Nat) (s s' : K.State) : StackCall → Prop
  | add _ | sub _ => K.Keeps (some .x16) s s'
  | address offset =>
    K.Keeps (some .x16) s s' ∧
      K.address s' (Target.aarch64.offsetAddress .sp offset).1 = offset.toUInt64
  | access a disp => a.Done K n (some .x16) disp.toInt64.toUInt64 s s'

-- ---------------------------------------------------------------------------
-- Within reach
-- ---------------------------------------------------------------------------

variable {len : VecLen} {caps : IsaSet} {c : StackCall}

open Arm64 (core Machine)

/-- An access past the stack pointer holds its displacement itself, or is refused. -/
theorem armAddress_sp {disp size : Int32}
    (hclean : ∀ e ∈ (Target.aarch64.armAddress (.past .sp disp) size).1, e.Clean) :
    Target.aarch64.armAddress (.past .sp disp) size = ([], .sp, disp) := by
  revert hclean
  simp only [Target.armAddress, Address.past, Option.isSome_none, Bool.false_eq_true, if_false,
    if_true]
  split
  · exact fun _ => rfl
  · exact fun hclean => (hclean _ (List.mem_singleton_self _)).elim

theorem address_sp (s : Machine) (disp : Int32) :
    core.address s (.past .sp disp) = core.reg s .sp + disp.toInt64.toUInt64 :=
  Core.address_past core s .sp disp

theorem access_reaches {a : Access} {disp : Int32}
    (hclean : ∀ e ∈ a.code ⟨.aarch64, len, caps⟩ (.past .sp disp), e.Clean)
    (hr : (access a disp).InReach) (s : Machine) :
    ∃ s' : Machine,
      Target.aarch64.Carries core.step?
        (blockBytes (a.code ⟨.aarch64, len, caps⟩ (.past .sp disp))) s s' ∧
      (access a disp).Done core len.lanes s s' := by
  cases a with
  | broadcast d =>
    have hsp : Gpr.sp ≠ .x16 := by decide
    obtain ⟨s', hs', hdone⟩ := Arm64.access_done (m := .past .sp disp) rfl (.inl hsp)
      (fun _ _ _ => hr) (by simp [Access.gpr?]) hclean s
    rw [address_sp] at hdone
    exact ⟨s', hs', hdone⟩
  | _ =>
    obtain ⟨hcode, hlanes⟩ := Access.code_arm rfl hclean
    rw [hcode] at hclean ⊢
    have hbefore := (List.forall_mem_append.mp hclean).1
    have hinstr := (List.forall_mem_append.mp hclean).2 _ (List.mem_singleton_self _)
    simp only [Access.formed, armAddress_sp hbefore] at hinstr ⊢
    obtain ⟨s', hs', hdone⟩ := Arm64.instr_done hinstr hlanes (by simp) s
    exact ⟨s', by simpa [Emission.bytes] using hs', hdone⟩

theorem neg_near {offset : Int64} :
    (-0xFFF ≤ -offset ∧ -offset ≤ 0xFFF) ↔ -0xFFF ≤ offset ∧ offset ≤ 0xFFF := by
  have hleast : (-0xFFF : Int64).toInt = -0xFFF := by decide
  have hmost : (0xFFF : Int64).toInt = 0xFFF := rfl
  have hlo := offset.le_toInt
  have hhi := offset.toInt_lt
  simp only [Int64.le_iff_toInt_le, hleast, hmost, Int64.toInt_neg, Int.bmod_def]
  split <;> omega

theorem computes_near (ar : Arith UInt32) {offset : Int64} (hlo : -0xFFF ≤ offset)
    (hhi : offset ≤ 0xFFF) :
    Target.aarch64.Computes ar (some .x16) (Target.aarch64.addOffset .sp offset) .sp fun s =>
      (Target.aarch64.core ar).reg s .sp + offset.toUInt64 :=
  (Target.computes_armImm rfl (by decide) hlo hhi).hide

theorem reaches (ar : Arith UInt32) (hclean : ∀ e ∈ c.code ⟨.aarch64, len, caps⟩, e.Clean)
    (hr : c.InReach) (s : Machine) :
    ∃ s' : Machine,
      Target.aarch64.Carries core.step? (blockBytes (c.code ⟨.aarch64, len, caps⟩)) s s' ∧
        c.Done core len.lanes s s' := by
  cases c with
  | add offset => exact (computes_near ar hr.1 hr.2).run s
  | sub offset =>
    have hmin : offset ≠ Int64.minValue := by
      rintro rfl
      exact absurd hr.1 (by decide)
    have hcode : Target.aarch64.subOffset .sp offset = Target.aarch64.addOffset .sp (-offset) :=
      if_neg hmin
    obtain ⟨hlo, hhi⟩ := neg_near.mpr hr
    simp only [code, Done]
    rw [hcode, UInt64.sub_eq_add_neg, ← Int64.toUInt64_neg]
    exact (computes_near ar hlo hhi).run s
  | address offset =>
    have hfit : X86.fitsInt32 offset := by
      simp only [X86.fitsInt32, Bool.and_eq_true, decide_eq_true_eq]
      exact ⟨Int64.le_trans (by decide) hr.1, hr.2⟩
    have hcode : Target.aarch64.offsetAddress .sp offset = (.past .sp offset.toInt32, []) := by
      simp [Target.offsetAddress, Target.isX86, hfit, hr.1]
    simp only [code, Done]
    rw [hcode]
    refine ⟨s, .nil, Core.Keeps.refl (K := core) _ s, ?_⟩
    rw [address_sp, X86.toInt32_inverse hfit]
  | access a disp => exact access_reaches hclean hr s

-- ---------------------------------------------------------------------------
-- Beyond reach
-- ---------------------------------------------------------------------------

theorem keeps_far (w : UInt64) {i : Arm64.Instr}
    (hi : i = .add .sp .sp .x16 ∨ i = .sub .sp .sp .x16) (s : Machine) :
    ∃ s' : Machine,
      Target.aarch64.Carries core.step? (blockBytes [.arm (.movImm .x16 w), .arm i]) s s' ∧
        core.Keeps (some .x16) s s' := by
  obtain ⟨u, hu, hmove⟩ := Arm64.sets_movImm (d := .x16) (by decide) (by decide) w s
  have hdecodes : i.Decodes := by
    rcases hi with rfl | rfl
    · exact Arm64.decodes_add (by decide) (by decide) (by decide)
    · exact Arm64.decodes_sub (by decide) (by decide) (by decide)
  have hexec : Machine.exec u i = some u := by
    rcases hi with rfl | rfl <;> rfl
  refine ⟨u, ?_, hmove.hide.keeps⟩
  simpa [Emission.bytes] using hu.append (Arm64.carries_instr hdecodes hexec)

theorem address_misses {offset : Int64} (hr : ¬ (0 ≤ offset ∧ offset ≤ 0x7FFFFFFF)) (s : Machine) :
    ∃ s' : Machine,
      Target.aarch64.Carries core.step?
        (blockBytes (Target.aarch64.offsetAddress .sp offset).2) s s' ∧
      (address offset).Missed core len.lanes s s' := by
  have hfar : ¬ (X86.fitsInt32 offset && 0 ≤ offset) = true := fun h => hr (by
    simp only [X86.fitsInt32, Bool.and_eq_true, decide_eq_true_eq] at h
    exact ⟨h.2, h.1.2⟩)
  have hcode : Target.aarch64.offsetAddress .sp offset = ({ base := .x16 },
      [.arm (.movImm .x16 offset.toUInt64), .arm (.add .x16 .sp .x16)]) := if_neg hfar
  obtain ⟨u, hu, hsets⟩ := Arm64.sets_far (n := .sp) (by decide) (by decide) offset.toUInt64 s
  have hvalue : u.base .x16 = 0 + offset.toUInt64 := hsets.value
  simp only [Missed]
  rw [hcode]
  refine ⟨u, hu, hsets.keeps, ?_⟩
  rw [Arm64.address_eq rfl, hvalue, Machine.offset_zero, UInt64.add_zero, UInt64.zero_add]

theorem broadcast_misses {d : Vreg} {disp : Int32}
    (hclean : ∀ e ∈ (Access.broadcast d).code ⟨.aarch64, len, caps⟩ (.past .sp disp), e.Clean)
    (hr : ¬ (0 ≤ disp ∧ disp ≤ 0xFFF)) (s : Machine) :
    ∃ s' : Machine,
      Target.aarch64.Carries core.step?
        (blockBytes ((Access.broadcast d).code ⟨.aarch64, len, caps⟩ (.past .sp disp))) s s' ∧
      (Access.broadcast d).Done core len.lanes (some .x16) disp.toInt64.toUInt64 s s' := by
  obtain ⟨hcode, hlanes⟩ := Access.code_arm rfl hclean
  have hdisp : disp ≠ 0 := by
    rintro rfl
    exact hr ⟨by decide, by decide⟩
  have hformed : (Access.broadcast d).formed (.past .sp disp) =
      ([.arm (.movImm .x16 disp.toInt64.toUInt64), .arm (.add .x16 .sp .x16)], .x16, 0) := by
    have hfar : ¬ (0 ≤ disp && disp ≤ 0xFFF) = true := by simpa using hr
    have hnone : ¬ (disp == 0 && true) = true := by simpa using hdisp
    exact (if_neg hnone).trans (congrArg (·, Gpr.x16, (0 : Int32)) (if_neg hfar))
  rw [hcode, hformed] at hclean ⊢
  have hinstr := (List.forall_mem_append.mp hclean).2 _ (List.mem_singleton_self _)
  obtain ⟨u, hu, hsets⟩ :=
    Arm64.sets_far (n := .sp) (by decide) (by decide) disp.toInt64.toUInt64 s
  have hvalue : u.base .x16 = 0 + disp.toInt64.toUInt64 := hsets.value
  obtain ⟨s', hs', hdone⟩ := Arm64.instr_done hinstr hlanes (fun _ _ => rfl) u
  rw [hvalue, Machine.offset_zero, UInt64.add_zero, UInt64.zero_add] at hdone
  refine ⟨s', ?_, hdone.after hsets.keeps (by simp [Access.gpr?])⟩
  rw [blockBytes_append]
  exact hu.append (by simpa [Emission.bytes] using hs')

theorem misses (hclean : ∀ e ∈ c.code ⟨.aarch64, len, caps⟩, e.Clean) (hr : ¬ c.InReach)
    (s : Machine) :
    ∃ s' : Machine,
      Target.aarch64.Carries core.step? (blockBytes (c.code ⟨.aarch64, len, caps⟩)) s s' ∧
        c.Missed core len.lanes s s' := by
  cases c with
  | add offset =>
    have hcode : Target.aarch64.addOffset .sp offset = _ := Target.addOffset_far rfl hr
    simp only [code, Missed]
    rw [hcode]
    exact keeps_far _ (.inl rfl) s
  | sub offset =>
    simp only [code, Missed]
    by_cases hmin : offset = Int64.minValue
    · have hcode : Target.aarch64.subOffset .sp offset =
          [.arm (.movImm .x16 offset.toUInt64), .arm (.sub .sp .sp .x16)] := if_pos hmin
      rw [hcode]
      exact keeps_far _ (.inr rfl) s
    · have hcode : Target.aarch64.subOffset .sp offset = _ :=
        (if_neg hmin).trans (Target.addOffset_far rfl fun h => hr (neg_near.mp h))
      rw [hcode]
      exact keeps_far _ (.inl rfl) s
  | address offset => exact address_misses hr s
  | access a disp =>
    cases a with
    | broadcast d => exact broadcast_misses hclean hr s
    | _ => exact (hr trivial).elim

/-- A state that tells the two apart: memory holds a byte where only the displacement leads. -/
def probe (c : StackCall) : Machine where
  gpr _ := 0
  sp := 4
  vec _ _ := 0
  zf := false
  mem := match c with
    | access _ disp => fun a => if a = disp.toInt64.toUInt64 then 1 else 0
    | _ => fun _ => 0

/-- A word differs from the next one where a single byte is set. -/
theorem read32_ne_next (loc : UInt64) :
    let mem : X86.Memory := fun a => if a = loc then 1 else 0
    mem.read32 loc ≠ mem.read32 (4 + loc) := by
  have hone : 4 + loc + 1 ≠ loc := by grind
  have htwo : 4 + loc + 2 ≠ loc := by grind
  have hthree : 4 + loc + 3 ≠ loc := by grind
  simp [X86.Memory.read32, hone, htwo, hthree]
  decide

theorem near_of_zero {offset : Int64} (h : offset.toUInt64 = 0) :
    -0xFFF ≤ offset ∧ offset ≤ 0xFFF := by
  have hzero : offset = 0 := by rw [← offset.toInt64_toUInt64, h]; rfl
  exact hzero ▸ ⟨by decide, by decide⟩

theorem missed_not_done {n : Nat} (hn : 0 < n) (hr : ¬ c.InReach) {s' : Machine}
    (h : c.Missed core n c.probe s') : ¬ c.Done core n c.probe s' := by
  intro hdone
  cases c with
  | add offset =>
    have hsum : 4 + offset.toUInt64 = 4 := hdone.value.symm.trans (h.reg .sp (by decide))
    exact hr (near_of_zero (by simpa using hsum))
  | sub offset =>
    have hsum : 4 - offset.toUInt64 = 4 := hdone.value.symm.trans (h.reg .sp (by decide))
    exact hr (near_of_zero (by grind))
  | address offset =>
    have hsum : offset.toUInt64 = 4 + offset.toUInt64 := h.2.symm.trans hdone.2
    exact absurd (UInt64.right_eq_add.mp hsum) (by decide)
  | access a disp =>
    cases a with
    | broadcast d =>
      exact read32_ne_next disp.toInt64.toUInt64
        ((h.effect.2 0 hn).symm.trans (hdone.effect.2 0 hn))
    | _ => exact hr trivial

end StackCall

/-- With no error pending, a call does what it is for exactly when its offset is in reach. -/
theorem stack_calls_reach (ar : Arith UInt32) (g : Generator) {c : StackCall}
    (harm : g.table.target = .aarch64) (herror : (g.stackCall c).buffer.error = none) :
    (g.Performs ar (g.stackCall c)
        (fun s s' => c.Done (g.table.target.core ar) g.table.len.lanes s s') ↔ c.InReach) ∧
      (¬ c.InReach → g.Performs ar (g.stackCall c)
        fun s s' => c.Missed (g.table.target.core ar) g.table.len.lanes s s') := by
  obtain ⟨name, origin, ⟨target, len, caps⟩, buffer, frame, exit⟩ := g
  obtain rfl : target = .aarch64 := harm
  rw [StackCall.stackCall_eq] at herror ⊢
  have hclean := (ok_foldl herror).2
  refine ⟨⟨fun hdone => ?_, fun hr => Generator.performs_emit (StackCall.reaches ar hclean hr)⟩,
    fun hr => Generator.performs_emit (StackCall.misses hclean hr)⟩
  refine Classical.byContradiction fun hr => ?_
  obtain ⟨s', h, h'⟩ :=
    hdone.both (Generator.performs_emit (StackCall.misses hclean hr)) c.probe
  exact StackCall.missed_not_done (by cases len <;> decide) hr h' h

theorem small_frame_reserved :
    let g : Generator := { name := "k", origin := "k", table := ⟨.aarch64, .v128, .empty⟩ }
    let c : StackCall := .sub 32
    let code : List UInt8 := [0xFF, 0x83, 0x00, 0xD1]
    g.table.target = .aarch64 ∧ (g.stackCall c).buffer.error = none ∧
      (g.stackCall c).buffer.bytes.toList = code ∧
        ∀ (ar : Arith UInt32) (s : Arm64.Machine), ∃ s' : Arm64.Machine,
          Target.aarch64.run? (Target.aarch64.core ar).step? code s = some s' ∧
            s'.sp = s.sp - 32 ∧ s'.mem = s.mem := by
  intro g c code
  have harm : g.table.target = .aarch64 := rfl
  have herror : (g.stackCall c).buffer.error = none := by decide
  have hbytes : (g.stackCall c).buffer.bytes.toList = code := by decide
  refine ⟨harm, herror, hbytes, fun ar s => ?_⟩
  obtain ⟨emitted, hemitted, hruns⟩ :=
    (stack_calls_reach ar g harm herror).1.mpr ⟨by decide, by decide⟩
  obtain rfl : emitted = code := (hemitted.symm.trans hbytes :)
  obtain ⟨s', hrun, hsets⟩ := hruns s
  exact ⟨s', hrun, hsets.value, hsets.mem⟩

/-- An offset of one more bit moves through the scratch register, and leaves the stack pointer where
it was. -/
theorem page_not_added :
    let g : Generator := { name := "k", origin := "k", table := ⟨.aarch64, .v128, .empty⟩ }
    let c : StackCall := .add 4096
    let code : List UInt8 := [0x10, 0x00, 0x82, 0xD2, 0xFF, 0x03, 0x10, 0x8B]
    (g.stackCall c).buffer.error = none ∧ (g.stackCall c).buffer.bytes.toList = code ∧
      ∀ s : Arm64.Machine, ∃ s' : Arm64.Machine,
        Target.aarch64.run? Arm64.core.step? code s = some s' ∧
          s'.sp = s.sp ∧ s'.sp ≠ s.sp + 4096 := by
  intro g c code
  have herror : (g.stackCall c).buffer.error = none := by decide
  have hbytes : (g.stackCall c).buffer.bytes.toList = code := by decide
  refine ⟨herror, hbytes, fun s => ?_⟩
  have hbeyond : ¬ c.InReach := fun h => absurd h.2 (by decide)
  have hclean : ∀ e ∈ c.code ⟨.aarch64, .v128, .empty⟩, e.Clean := (ok_foldl herror).2
  have hcode : blockBytes (c.code ⟨.aarch64, .v128, .empty⟩) = code := by decide
  obtain ⟨s', hs', hkept⟩ := StackCall.misses hclean hbeyond s
  have hsp : s'.sp = s.sp := hkept.reg .sp (by decide)
  refine ⟨s', (hcode ▸ hs').run, hsp, fun h => ?_⟩
  have hzero : (4096 : UInt64) = 0 := UInt64.left_eq_add.mp (hsp.symm.trans h)
  exact absurd hzero (by decide)

end JitGemm
