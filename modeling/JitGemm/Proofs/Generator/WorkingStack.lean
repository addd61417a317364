import JitGemm.Proofs.Generator.Preservation
import JitGemm.Proofs.Scalar.Core

/-!
# How much working stack a frame reserves

The reserve is a word of 64 bits, and 32 bits of it enter the instruction that moves the stack
pointer. On AArch64 twelve bits are checked of those, on x86-64 none. What the code takes is then
what the frame tells its caller just if those bits say it all.
-/

namespace JitGemm

namespace Target

def stackPointer (t : Target) : Gpr := if t.isX86 then .rsp else .sp

/-- What the code takes of a reserve: 32 bits, signed on x86-64. -/
def taken (t : Target) (n : Nat) : UInt64 :=
  if t.isX86 then (Int32.ofNat n).toInt64.toUInt64 else (UInt32.ofNat n).toUInt64

/-- Reserves that 32 bits hold. On x86-64 words that stand for negative numbers are among them. -/
def Whole (t : Target) (n : Nat) : Prop :=
  if t.isX86 then n < 2 ^ 31 ∨ 2 ^ 64 - 2 ^ 31 ≤ n else n < 2 ^ 32

theorem signed_eq_iff {n : Nat} (hn : n < 2 ^ 64) :
    (Int32.ofNat n).toInt64.toUInt64 = UInt64.ofNat n ↔ n < 2 ^ 31 ∨ 2 ^ 64 - 2 ^ 31 ≤ n := by
  have hsigned : (Int32.ofNat n).toInt64.toUInt64 = UInt64.ofNat n ↔
      (Int32.ofNat n).toInt64 = Int64.ofNat n :=
    ⟨fun h => (Int64.toInt64_toUInt64 _).symm.trans (congrArg UInt64.toInt64 h),
      congrArg Int64.toUInt64⟩
  rw [hsigned, ← Int64.toInt_inj, Int32.toInt_toInt64, Int32.toInt_ofNat', Int64.toInt_ofNat',
    Int.bmod_def, Int.bmod_def]
  simp only [Int32.size, Int64.size]
  split <;> split <;> omega

theorem taken_eq_iff {t : Target} {n : Nat} (hn : n < 2 ^ 64) :
    t.taken n = UInt64.ofNat n ↔ t.Whole n := by
  unfold taken Whole
  split
  · exact signed_eq_iff hn
  · rw [← UInt64.toNat_inj, UInt32.toNat_toUInt64, UInt32.toNat_ofNat', UInt64.toNat_ofNat']
    omega

end Target

-- ---------------------------------------------------------------------------
-- Opening a frame
-- ---------------------------------------------------------------------------

namespace Frame

variable {t : Target} {n : Nat}

theorem reserving_clean :
    (∀ i ∈ reserving n, i.chunk.fault = none) ↔ n % 2 ^ 32 ≤ 4095 := by
  unfold reserving
  split
  · rename_i hzero
    simp [hzero]
  · rw [List.forall_mem_singleton, ← imm_le_iff]
    exact Arm64.imm12_clean.trans (and_iff_left ⟨by decide, by decide⟩)

theorem preambleX86_clean (ht : t.isX86) (n : Nat) (vex : Bool) :
    ∀ e ∈ (⟨t, n⟩ : Frame).preambleX86 vex, e.Clean := by
  rw [preambleX86_eq]
  refine List.forall_mem_append.mpr ⟨?_, fun e he => ?_⟩
  · cases t with
    | sysV | win64 => cases vex <;> decide
    | aarch64 => cases ht
  · split at he
    · cases he
    · obtain rfl := List.mem_singleton.mp he
      exact X86.fault_integer (by decide : Gpr.rsp.num ≤ 15)

/-- Nothing but the reserve can be at fault, and that on AArch64 only. -/
theorem preamble_clean (t : Target) (n : Nat) (vex : Bool) :
    (∀ e ∈ (⟨t, n⟩ : Frame).preamble vex, e.Clean) ↔ t.isX86 ∨ n % 2 ^ 32 ≤ 4095 := by
  cases t with
  | sysV | win64 => exact iff_of_true (preambleX86_clean rfl n vex) (.inl rfl)
  | aarch64 =>
    have hsaving : ∀ i ∈ saving, i.chunk.fault = none := by decide
    show (∀ e ∈ (⟨.aarch64, n⟩ : Frame).preambleArm, e.Clean) ↔ _
    rw [preambleArm_eq, List.forall_mem_map, List.forall_mem_append, ← reserving_clean]
    exact ⟨fun h => .inr h.2, fun h => ⟨hsaving, h.resolve_left (by decide)⟩⟩

theorem lowersX86 (ar : Arith UInt32) (ht : t.isX86) (vex : Bool) (s : X86.Machine) :
    ∃ s' : X86.Machine,
      t.Carries (X86.core ar).step? (blockBytes ((⟨t, n⟩ : Frame).preambleX86 vex)) s s' ∧
        s'.gpr .rsp + t.taken n + UInt64.ofNat t.saveArea = s.gpr .rsp := by
  let low := s.gpr .rsp - UInt64.ofNat t.saveArea
  have htop : s.gpr .rsp = low + UInt64.ofNat t.saveArea := (UInt64.sub_add_cancel _ _).symm
  have htaken : t.taken n = (Int32.ofNat n).toInt64.toUInt64 := if_pos ht
  obtain ⟨s', hblock, hs', -⟩ := opens_frame ar ht vex low (saveArea_eq ht ▸ htop)
  refine ⟨s', X86.carries_block ht (decodes_opening ht vex) hblock, ?_⟩
  rw [hs', htaken, UInt64.sub_add_cancel, htop]

theorem lowersArm (hn : n % 2 ^ 32 ≤ 4095) (s : Arm64.Machine) :
    ∃ s' : Arm64.Machine,
      Target.aarch64.Carries Arm64.core.step?
          (blockBytes ((⟨.aarch64, n⟩ : Frame).preambleArm)) s s' ∧
        s'.sp + Target.aarch64.taken n + UInt64.ofNat Target.aarch64.saveArea = s.sp := by
  let low := s.sp - UInt64.ofNat 160
  have htop : s.sp = low + UInt64.ofNat 160 := (UInt64.sub_add_cancel _ _).symm
  have himm := imm_le_iff.mpr hn
  have htaken : Target.aarch64.taken n = (UInt32.ofNat n).toUInt64 := if_neg (by decide)
  obtain ⟨s', hblock, hs', -⟩ := opens_frameArm himm htop
  refine ⟨s', ?_, ?_⟩
  · rw [preambleArm_eq, Arm64.bytes_map]
    exact Arm64.carries_block
      (List.forall_mem_append.mpr ⟨decodes_saving, (reserves himm s).2⟩) hblock
  · rw [hs', htaken, UInt64.sub_add_cancel]
    exact htop.symm

/-- Opening a frame moves the stack pointer below the save area, and from there by what the code
takes of the reserve. -/
theorem preamble_lowers (ar : Arith UInt32) {vex : Bool}
    (hclean : ∀ e ∈ (⟨t, n⟩ : Frame).preamble vex, e.Clean) (s : (t.core ar).State) :
    ∃ s', t.Carries (t.core ar).step? (blockBytes ((⟨t, n⟩ : Frame).preamble vex)) s s' ∧
      (t.core ar).reg s' t.stackPointer + t.taken n + UInt64.ofNat t.saveArea =
        (t.core ar).reg s t.stackPointer := by
  cases t with
  | sysV | win64 => exact lowersX86 ar rfl vex s
  | aarch64 =>
    exact lowersArm (((preamble_clean _ _ _).mp hclean).resolve_left (by decide)) s

end Frame

-- ---------------------------------------------------------------------------
-- What the caller is told
-- ---------------------------------------------------------------------------

theorem Target.nonempty_state (ar : Arith UInt32) (t : Target) : Nonempty (t.core ar).State := by
  cases t with
  | sysV | win64 => exact ⟨(⟨fun _ => 0, fun _ _ => 0, false, fun _ => 0⟩ : X86.Machine)⟩
  | aarch64 => exact ⟨(⟨fun _ => 0, 0, fun _ _ => 0, false, fun _ => 0⟩ : Arm64.Machine)⟩

/-- There is no frame for sizes of which the next multiple of 16 is no word. For any other, an error
keeps reserves beyond twelve bits from AArch64, of which only 32 are looked at. Without one the code
takes what it can say of the reserve, which is all of it just if 32 bits hold it; and a reserve is
at least what was asked for. -/
theorem preamble_reserves (ar : Arith UInt32) (g : Generator) (bytes : Nat) :
    (StackSize.ofBytes? bytes = none ↔ 2 ^ 64 - 16 < bytes) ∧
    ∀ stack, StackSize.ofBytes? bytes = some stack →
      let t := g.table.target
      let n := (g.preamble stack).1.reserve
      let g' := (g.preamble stack).2
      let Lowers (w : UInt64) : Prop := g.Performs ar g' fun s s' =>
        (t.core ar).reg s' t.stackPointer + w + UInt64.ofNat t.saveArea =
          (t.core ar).reg s t.stackPointer
      (g'.buffer.error = none ↔ g.buffer.error = none ∧ (t.isX86 ∨ n % 2 ^ 32 ≤ 4095)) ∧
        bytes ≤ n ∧
        (g'.buffer.error = none →
          Lowers (t.taken n) ∧ (Lowers (UInt64.ofNat n) ↔ t.Whole n)) := by
  refine ⟨StackSize.ofBytes?_eq_none, ?_⟩
  intro stack hsize t n g' Lowers
  let code := (⟨t, n⟩ : Frame).preamble g.table.vex
  have hframe : Frame.ofStack t stack = ⟨t, n⟩ :=
    congrArg (fun t => (⟨t, n⟩ : Frame)) (Frame.target_ofStack t stack)
  have hemit : g'.buffer = (g.emit code).buffer := by
    show (g.emit ((Frame.ofStack t stack).preamble g.table.vex)).buffer = _
    rw [hframe]
  have herror : g'.buffer.error = none ↔ g.buffer.error = none ∧ ∀ e ∈ code, e.Clean := by
    rw [hemit]
    exact ⟨ok_foldl, fun h => (g.error_emit h.2).trans h.1⟩
  refine ⟨?_, ?_, fun hnone => ?_⟩
  · rw [herror, Frame.preamble_clean]
  · rw [← StackSize.bytes_of_some hsize]
    exact Frame.le_reserve t stack
  · have hlowers : Lowers (t.taken n) := by
      refine ⟨blockBytes code, hemit ▸ g.bytes_emit code, fun s => ?_⟩
      obtain ⟨s', hs', hsp⟩ := Frame.preamble_lowers ar (herror.mp hnone).2 s
      exact ⟨s', hs'.run, hsp⟩
    refine ⟨hlowers, ?_⟩
    have hword : n < 2 ^ 64 := Frame.reserve_lt_word t stack
    rw [← Target.taken_eq_iff hword]
    constructor
    · intro hwhole
      obtain ⟨s⟩ := Target.nonempty_state ar t
      obtain ⟨s', htaken, htold⟩ := hlowers.both hwhole s
      have hsum := htaken.trans htold.symm
      exact (UInt64.add_right_inj _).mp ((UInt64.add_left_inj _).mp hsum)
    · intro h
      exact h ▸ hlowers

theorem forty_bytes_reserved :
    let g : Generator := { name := "k", origin := "k", table := ⟨.sysV, .v128, .empty⟩ }
    let code : List UInt8 := [0x53, 0x55, 0x41, 0x54, 0x41, 0x55, 0x41, 0x56, 0x41, 0x57,
      0x48, 0x83, 0xEC, 0x38]
    StackSize.ofBytes? 40 = some fortyBytes ∧ (g.preamble fortyBytes).1.reserve = 56 ∧
      (g.preamble fortyBytes).2.buffer.bytes.toList = code ∧
        ∀ (ar : Arith UInt32) (s : X86.Machine), ∃ s' : X86.Machine,
          Target.sysV.run? (X86.core ar).step? code s = some s' ∧
            s'.gpr .rsp + 56 + 48 = s.gpr .rsp := by
  intro g code
  have hsize : StackSize.ofBytes? 40 = some fortyBytes := rfl
  have hbytes : (g.preamble fortyBytes).2.buffer.bytes.toList = code := by decide
  have hreserve : (g.preamble fortyBytes).1.reserve = 56 := by decide
  refine ⟨hsize, hreserve, hbytes, fun ar s => ?_⟩
  obtain ⟨-, -, hreserves⟩ := (preamble_reserves ar g 40).2 fortyBytes hsize
  have hwhole : Target.sysV.Whole 56 := .inl (by decide)
  obtain ⟨emitted, hemitted, hruns⟩ := (hreserves (by decide)).2.mpr (hreserve ▸ hwhole)
  obtain rfl : emitted = code := (hemitted.symm.trans hbytes :)
  rw [hreserve] at hruns
  exact hruns s

def fourGigabytes : StackSize := ⟨2 ^ 32, by decide⟩

/-- Nothing is left of 2^32 in an instruction, and no error either. -/
theorem reserve_cut_off :
    let g : Generator := { name := "k", origin := "k", table := ⟨.aarch64, .v128, .empty⟩ }
    let code : List UInt8 := [0xFD, 0x7B, 0xB6, 0xA9, 0xFD, 0x03, 0x00, 0x91,
      0xF3, 0x53, 0x01, 0xA9, 0xF5, 0x5B, 0x02, 0xA9, 0xF7, 0x63, 0x03, 0xA9,
      0xF9, 0x6B, 0x04, 0xA9, 0xFB, 0x73, 0x05, 0xA9, 0xE8, 0x27, 0x06, 0x6D,
      0xEA, 0x2F, 0x07, 0x6D, 0xEC, 0x37, 0x08, 0x6D, 0xEE, 0x3F, 0x09, 0x6D,
      0xFF, 0x03, 0x00, 0xD1]
    (g.preamble fourGigabytes).1.reserve = 2 ^ 32 ∧
      (g.preamble fourGigabytes).2.buffer.error = none ∧
      (g.preamble fourGigabytes).2.buffer.bytes.toList = code ∧
        ∀ s : Arm64.Machine, ∃ s' : Arm64.Machine,
          Target.aarch64.run? Arm64.core.step? code s = some s' ∧
            s'.sp + 160 = s.sp ∧ s'.sp + UInt64.ofNat (2 ^ 32) + 160 ≠ s.sp := by
  intro g code
  have hcode : blockBytes ((⟨.aarch64, 2 ^ 32⟩ : Frame).preambleArm) = code := by decide
  refine ⟨by decide, by decide, by decide, fun s => ?_⟩
  obtain ⟨s', hs', hsp⟩ := Frame.lowersArm (n := 2 ^ 32) (by decide) s
  have htaken : Target.aarch64.taken (2 ^ 32) = 0 := by decide
  rw [htaken, UInt64.add_zero] at hsp
  refine ⟨s', (hcode ▸ hs').run, hsp, fun h => ?_⟩
  have hword : UInt64.ofNat (2 ^ 32) = 0 :=
    UInt64.left_eq_add.mp ((UInt64.add_left_inj _).mp (hsp.trans h.symm))
  exact absurd hword (by decide)

end JitGemm
