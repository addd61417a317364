import JitGemm.Proofs.Scalar.Core
import JitGemm.Proofs.X86.Stream

/-!
# Single operations on general registers

What the instructions of moves, constants, sums, shifts and negations leave in their registers, on
both architectures.
-/

namespace JitGemm

open Code (le32)

-- ---------------------------------------------------------------------------
-- Operands
-- ---------------------------------------------------------------------------

namespace Target.HasGpr

variable {t : Target} {r : Gpr}

theorem x86 (h : t.HasGpr r) (ht : t.isX86) : r.num ≤ 15 := by simpa [HasGpr, ht] using h

theorem arm (h : t.HasGpr r) (ht : t.isX86 = false) : r.num ≤ 31 ∧ r ≠ .sp := by
  have hle : r.num ≤ 30 := by simpa [HasGpr, ht] using h
  refine ⟨UInt8.le_trans hle (by decide), ?_⟩
  rintro rfl
  exact absurd hle (by decide)

end Target.HasGpr

-- ---------------------------------------------------------------------------
-- One instruction of each architecture
-- ---------------------------------------------------------------------------

section

variable {ar : Arith UInt32} {t : Target} {i : X86.Instr} {a : Arm64.Instr} {r : Gpr}
  {f : (K : Core) → K.State → UInt64}

namespace Target

theorem computes_x86 (ht : t.isX86) (hi : i.Integer)
    (h : ∀ s : X86.Machine, ∃ s', s.step? ar (.x86 (.plain i.canonical)) = some s' ∧
      (X86.core ar).Sets none r (f (X86.core ar) s) s s') :
    t.Computes ar none [.x86 i] r (f (t.core ar)) := by
  refine ⟨fun e he => ?_, ?_⟩
  · obtain rfl := List.mem_singleton.mp he
    exact X86.fault_integer hi
  · have hbytes : blockBytes [.x86 i] = i.chunk.bytes := by simp [Emission.bytes]
    cases t with
    | sysV | win64 =>
      intro s
      obtain ⟨s', hstep, hsets⟩ := h s
      exact ⟨s', hbytes ▸ .one (fetches_x86 rfl (.integer hi)) hstep, hsets⟩
    | aarch64 => cases ht

theorem computes_arm (ht : t.isX86 = false) (hclean : a.chunk.fault = none)
    (h : ∀ s : Arm64.Machine, ∃ s',
      Target.aarch64.Carries Arm64.core.step? a.chunk.bytes s s' ∧
        Arm64.core.Sets none r (f Arm64.core s) s s') :
    t.Computes ar none [.arm a] r (f (t.core ar)) := by
  refine ⟨fun e he => ?_, ?_⟩
  · obtain rfl := List.mem_singleton.mp he
    exact hclean
  · have hbytes : blockBytes [.arm a] = a.chunk.bytes := by simp [Emission.bytes]
    cases t with
    | sysV | win64 => cases ht
    | aarch64 =>
      intro s
      obtain ⟨s', hcarries, hsets⟩ := h s
      exact ⟨s', hbytes ▸ hcarries, hsets⟩

/-- The same operation on either architecture. -/
theorem computes_pick
    (hx : t.isX86 → i.Integer ∧ ∀ s : X86.Machine, ∃ s',
      s.step? ar (.x86 (.plain i.canonical)) = some s' ∧
        (X86.core ar).Sets none r (f (X86.core ar) s) s s')
    (ha : t.isX86 = false → a.chunk.fault = none ∧ ∀ s : Arm64.Machine, ∃ s',
      Target.aarch64.Carries Arm64.core.step? a.chunk.bytes s s' ∧
        Arm64.core.Sets none r (f Arm64.core s) s s') :
    t.Computes ar none (t.pick i a) r (f (t.core ar)) := by
  unfold pick
  split
  · rename_i ht
    exact computes_x86 ht (hx ht).1 (hx ht).2
  · rename_i ht
    replace ht := eq_false_of_ne_true ht
    exact computes_arm ht (ha ht).1 (ha ht).2

end Target

theorem Arm64.sets_instr (ha : a.Decodes) {s : Machine} {w : UInt64}
    (h : s.exec a = some (s.setBase r w)) :
    ∃ s', Target.aarch64.Carries core.step? a.chunk.bytes s s' ∧ core.Sets none r w s s' :=
  ⟨_, carries_instr ha h, sets_setBase s r w⟩

end

-- ---------------------------------------------------------------------------
-- Moves and sums
-- ---------------------------------------------------------------------------

theorem Arm64.sets_add {d n m : Gpr} (hd : d.num ≤ 31 ∧ d ≠ .sp) (hn : n.num ≤ 31 ∧ n ≠ .sp)
    (hm : m.num ≤ 31 ∧ m ≠ .sp) (s : Machine) :
    ∃ s', Target.aarch64.Carries core.step? (Instr.add d n m).chunk.bytes s s' ∧
      core.Sets none d (s.base n + s.base m) s s' := by
  refine sets_instr (decodes_add hd.1 hn.1 hm.1) ?_
  rw [Machine.exec, Machine.setReg_eq_setBase hd.2, Machine.reg_eq_base hn.2,
    Machine.reg_eq_base hm.2]

namespace Target

variable {ar : Arith UInt32} {t : Target} {d n m r : Gpr}

theorem computes_mov (hd : t.HasGpr d) (hr : t.HasGpr r) :
    t.Computes ar none (t.pick (.mov d r) (.mov d r)) d fun s => (t.core ar).reg s r := by
  refine computes_pick (f := fun K s => K.reg s r) (fun ht => ?_) fun ht => ?_
  · exact ⟨⟨hd.x86 ht, hr.x86 ht⟩, fun s => ⟨_, rfl, X86.sets_setGpr s d _⟩⟩
  · obtain ⟨hd, hdsp⟩ := hd.arm ht
    obtain ⟨hr, hrsp⟩ := hr.arm ht
    refine ⟨Arm64.rrr_clean.mpr ⟨hd, by decide, hr⟩,
      fun s => Arm64.sets_instr (Arm64.decodes_mov hd hr) ?_⟩
    rw [Arm64.Machine.exec, Arm64.Machine.setReg_eq_setBase hdsp, Arm64.Machine.reg_eq_base hrsp]
    rfl

theorem computes_armAdd (ht : t.isX86 = false) (hd : t.HasGpr d) (hn : t.HasGpr n)
    (hm : t.HasGpr m) :
    t.Computes ar none [.arm (.add d n m)] d fun s =>
      (t.core ar).reg s n + (t.core ar).reg s m :=
  computes_arm (f := fun K s => K.reg s n + K.reg s m) ht
    (Arm64.rrr_clean.mpr ⟨(hd.arm ht).1, (hn.arm ht).1, (hm.arm ht).1⟩)
    (Arm64.sets_add (hd.arm ht) (hn.arm ht) (hm.arm ht))

theorem computes_add (hd : t.HasGpr d) (hr : t.HasGpr r) :
    t.Computes ar none (t.addGpr d r) d fun s => (t.core ar).reg s d + (t.core ar).reg s r := by
  refine computes_pick (f := fun K s => K.reg s d + K.reg s r) (fun ht => ?_) fun ht => ?_
  · exact ⟨⟨hd.x86 ht, hr.x86 ht⟩, fun s => ⟨_, rfl, X86.sets_setResult s d _⟩⟩
  · exact ⟨Arm64.rrr_clean.mpr ⟨(hd.arm ht).1, (hd.arm ht).1, (hr.arm ht).1⟩,
      Arm64.sets_add (hd.arm ht) (hd.arm ht) (hr.arm ht)⟩

theorem computes_sub (hd : t.HasGpr d) (hr : t.HasGpr r) :
    t.Computes ar none (t.pick (.sub d r) (.sub d d r)) d fun s =>
      (t.core ar).reg s d - (t.core ar).reg s r := by
  refine computes_pick (f := fun K s => K.reg s d - K.reg s r) (fun ht => ?_) fun ht => ?_
  · exact ⟨⟨hd.x86 ht, hr.x86 ht⟩, fun s => ⟨_, rfl, X86.sets_setResult s d _⟩⟩
  · obtain ⟨hd, hdsp⟩ := hd.arm ht
    obtain ⟨hr, hrsp⟩ := hr.arm ht
    refine ⟨Arm64.rrr_clean.mpr ⟨hd, hd, hr⟩,
      fun s => Arm64.sets_instr (Arm64.decodes_sub hd hd hr) ?_⟩
    rw [Arm64.Machine.exec, Arm64.Machine.setReg_eq_setBase hdsp, Arm64.Machine.reg_eq_base hrsp,
      Arm64.Machine.reg_eq_base hdsp]
    rfl

-- ---------------------------------------------------------------------------
-- Zero and negation
-- ---------------------------------------------------------------------------

theorem computes_zero (hr : t.HasGpr r) :
    t.Computes ar none (t.pick (.xor r r) (.mov r ⟨31⟩)) r fun _ => 0 := by
  refine computes_pick (f := fun _ _ => 0) (fun ht => ?_) fun ht => ?_
  · refine ⟨⟨hr.x86 ht, hr.x86 ht⟩, fun s => ⟨_, rfl, ?_⟩⟩
    rw [UInt64.xor_self]
    exact X86.sets_setResult s r 0
  · obtain ⟨hr, hrsp⟩ := hr.arm ht
    refine ⟨Arm64.rrr_clean.mpr ⟨hr, by decide, by decide⟩,
      fun s => Arm64.sets_instr (Arm64.decodes_mov hr (by decide)) ?_⟩
    rw [Arm64.Machine.exec, Arm64.Machine.setReg_eq_setBase hrsp]
    rfl

theorem computes_neg (hr : t.HasGpr r) :
    t.Computes ar none (t.pick (.neg r) (.neg r r)) r fun s => -(t.core ar).reg s r := by
  refine computes_pick (f := fun K s => -K.reg s r) (fun ht => ?_) fun ht => ?_
  · exact ⟨hr.x86 ht, fun s => ⟨_, rfl, X86.sets_setResult s r _⟩⟩
  · obtain ⟨hr, hrsp⟩ := hr.arm ht
    refine ⟨Arm64.rrr_clean.mpr ⟨hr, by decide, hr⟩, fun s => ?_⟩
    rw [Arm64.bytes_neg]
    refine Arm64.sets_instr (Arm64.decodes_sub hr (by decide) hr) ?_
    have hzero : s.reg .sp = 0 := rfl
    rw [Arm64.Machine.exec, Arm64.Machine.setReg_eq_setBase hrsp, Arm64.Machine.reg_eq_base hrsp,
      hzero, UInt64.zero_sub]
    rfl

-- ---------------------------------------------------------------------------
-- Shifts
-- ---------------------------------------------------------------------------

theorem shiftLeft_eq_mul (v : UInt64) {n : Nat} (hn : n ≤ 63) :
    v <<< (UInt8.ofNat n).toUInt64 = v * UInt64.ofNat (2 ^ n) := by
  have hcount : (UInt8.ofNat n).toUInt64.toNat % 64 = n := by
    rw [UInt8.toNat_toUInt64, UInt8.toNat_ofNat']
    omega
  apply UInt64.toNat_inj.mp
  rw [UInt64.toNat_shiftLeft, hcount, Nat.shiftLeft_eq, UInt64.toNat_mul, UInt64.toNat_ofNat',
    Nat.mul_mod_mod]

theorem computes_shiftLeft (hr : t.HasGpr r) {n : Nat} (hn : n ≤ 63) :
    t.Computes ar none (t.shiftLeft r n) r fun s =>
      (t.core ar).reg s r * UInt64.ofNat (2 ^ n) := by
  unfold shiftLeft
  split
  · rename_i hzero
    subst hzero
    exact Computes.nil.congr fun s => (UInt64.mul_one _).symm
  · rename_i hzero
    refine computes_pick (f := fun K s => K.reg s r * UInt64.ofNat (2 ^ n)) (fun ht => ?_)
      fun ht => ?_
    · have hmask : UInt8.ofNat n &&& 63 = UInt8.ofNat n := by
        apply UInt8.toNat_inj.mp
        rw [UInt8.toNat_and, UInt8.toNat_ofNat', Nat.mod_eq_of_lt (by omega)]
        exact (Nat.and_two_pow_sub_one_eq_mod n 6).trans (Nat.mod_eq_of_lt (by omega))
      have hne : UInt8.ofNat n ≠ 0 := by
        intro h
        have hnat := congrArg UInt8.toNat h
        rw [UInt8.toNat_ofNat', Nat.mod_eq_of_lt (by omega)] at hnat
        exact hzero hnat
      refine ⟨hr.x86 ht, fun s => ⟨_, rfl, ?_⟩⟩
      simp only [X86.Machine.shiftLeft, hmask, hne, if_false, shiftLeft_eq_mul _ hn]
      exact X86.sets_setResult s r _
    · obtain ⟨hr, hrsp⟩ := hr.arm ht
      refine ⟨?_, fun s => Arm64.sets_instr (Arm64.decodes_lslImm hr hr hn) ?_⟩
      · simp [Arm64.Instr.chunk, Arm64.lsl, Arm64.one_clean, Arm64.gprFault_none.mpr hr]
      · rw [Arm64.Machine.exec, Arm64.Machine.setReg_eq_setBase hrsp,
          Arm64.Machine.reg_eq_base hrsp, shiftLeft_eq_mul _ hn]
        rfl

end Target

-- ---------------------------------------------------------------------------
-- Constants
-- ---------------------------------------------------------------------------

namespace Arm64

def half (imm : UInt64) (k : Nat) : UInt16 := (imm >>> (UInt8.ofNat (16 * k)).toUInt64).toUInt16

/-- What enters half-word `k` into a register that holds zeros from there up. -/
def moveHalf (d : Gpr) (imm : UInt64) (k : Nat) : List Instr :=
  if half imm k == 0 then [] else [.movk d (half imm k) (UInt8.ofNat (16 * k))]

/-- Words picked one by one are the instructions picked one by one. -/
theorem bytes_filterMap {α : Type} {word? : α → Option UInt32} {is : α → List Instr}
    (h : ∀ a, (word? a).toList.flatMap le32 = blockBytes (is a)) (as : List α) :
    (as.filterMap word?).flatMap le32 = blockBytes (as.flatMap is) := by
  induction as with
  | nil => rfl
  | cons a as ih =>
    have hsplit : blockBytes ((a :: as).flatMap is) =
        blockBytes (is a) ++ blockBytes (as.flatMap is) := List.flatMap_append
    rw [hsplit, ← ih, ← h]
    cases ha : word? a with
    | none =>
      rw [List.filterMap_cons_none ha]
      rfl
    | some w =>
      rw [List.filterMap_cons_some ha]
      simp

theorem shiftCount {k : Nat} (hk : k < 4) :
    (UInt8.ofNat (16 * k)).toUInt64.toNat % 64 = 16 * k := by
  rw [UInt8.toNat_toUInt64, UInt8.toNat_ofNat']
  omega

theorem toNat_half (imm : UInt64) {k : Nat} (hk : k < 4) :
    (half imm k).toNat = imm.toNat / 2 ^ (16 * k) % 2 ^ 16 := by
  rw [half, UInt64.toNat_toUInt16, UInt64.toNat_shiftRight, shiftCount hk,
    Nat.shiftRight_eq_div_pow]

/-- A constant cut down to its low `k` half-words. -/
def lowHalves (imm : UInt64) (k : Nat) : UInt64 := UInt64.ofNat (imm.toNat % 2 ^ (16 * k))

theorem toNat_lowHalves (imm : UInt64) (k : Nat) :
    (lowHalves imm k).toNat = imm.toNat % 2 ^ (16 * k) := by
  rw [lowHalves, UInt64.toNat_ofNat']
  exact Nat.mod_eq_of_lt (Nat.lt_of_le_of_lt (Nat.mod_le _ _) imm.toNat_lt)

theorem lowHalves_four (imm : UInt64) : lowHalves imm 4 = imm := by
  apply UInt64.toNat_inj.mp
  rw [toNat_lowHalves]
  exact Nat.mod_eq_of_lt imm.toNat_lt

theorem toNat_lowHalves_succ (imm : UInt64) {k : Nat} (hk : k < 4) :
    (lowHalves imm (k + 1)).toNat =
      (lowHalves imm k).toNat + (half imm k).toNat * 2 ^ (16 * k) := by
  rw [toNat_lowHalves, toNat_lowHalves, toNat_half imm hk, Nat.mul_succ, Nat.pow_add, Nat.mod_mul,
    Nat.mul_comm (2 ^ (16 * k))]

/-- Clearing a half-word that holds zeros, with nothing above it, changes nothing. -/
theorem and_not_half {v : UInt64} {k : Nat} (hk : k < 4) (hv : v.toNat < 2 ^ (16 * k)) :
    v &&& ~~~((0xFFFF : UInt64) <<< (UInt8.ofNat (16 * k)).toUInt64) = v := by
  have hlow : v &&& UInt64.ofNat (2 ^ (16 * k) - 1) = v := by
    apply UInt64.toNat_inj.mp
    have hlt : 2 ^ (16 * k) < 2 ^ 64 := Nat.pow_lt_pow_right (by decide) (by omega)
    rw [UInt64.toNat_and, UInt64.toNat_ofNat', Nat.mod_eq_of_lt (by omega),
      Nat.and_two_pow_sub_one_eq_mod, Nat.mod_eq_of_lt hv]
  have hinside : ∀ j < 4, UInt64.ofNat (2 ^ (16 * j) - 1) &&&
      ~~~((0xFFFF : UInt64) <<< (UInt8.ofNat (16 * j)).toUInt64) =
        UInt64.ofNat (2 ^ (16 * j) - 1) := by decide
  rw [← hlow, UInt64.and_assoc, hinside k hk]

theorem or_half (imm : UInt64) {k : Nat} (hk : k < 4) :
    lowHalves imm k ||| (half imm k).toUInt64 <<< (UInt8.ofNat (16 * k)).toUInt64 =
      lowHalves imm (k + 1) := by
  have hlow : (lowHalves imm k).toNat < 2 ^ (16 * k) := by
    rw [toNat_lowHalves]
    exact Nat.mod_lt _ (Nat.two_pow_pos _)
  have hsum := toNat_lowHalves_succ imm hk
  have hlt := (lowHalves imm (k + 1)).toNat_lt
  apply UInt64.toNat_inj.mp
  rw [hsum, UInt64.toNat_or, UInt64.toNat_shiftLeft, shiftCount hk, Nat.shiftLeft_eq,
    UInt16.toNat_toUInt64, Nat.mod_eq_of_lt (by omega), Nat.or_comm, Nat.mul_comm,
    ← Nat.two_pow_add_eq_or_of_lt hlow, Nat.add_comm]

theorem decodes_moveHalf {d : Gpr} (hd : d.num ≤ 31) (imm : UInt64) {k : Nat} (hk : k < 4) :
    ∀ i ∈ moveHalf d imm k, i.Decodes := by
  unfold moveHalf
  split
  · simp
  · simpa using decodes_movk hd _ hk

theorem Machine.setReg_setReg (s : Machine) (d : Gpr) (v w : UInt64) :
    (s.setReg d v).setReg d w = s.setReg d w := by
  unfold setReg
  split
  · rfl
  · simp only [setGpr, Machine.mk.injEq, and_self, and_true]
    funext q
    split <;> rfl

theorem block_moveHalf (d : Gpr) (imm : UInt64) {k : Nat} (hk : k < 4) (s : Machine) :
    (s.setReg d (lowHalves imm k)).block (moveHalf d imm k) =
      some (s.setReg d (lowHalves imm (k + 1))) := by
  have hsum := or_half imm hk
  unfold moveHalf
  split
  · rename_i hzero
    rw [beq_iff_eq] at hzero
    have hsame : lowHalves imm (k + 1) = lowHalves imm k := by
      rw [← hsum, hzero]
      simp
    rw [hsame]
    rfl
  · have hclear := and_not_half (v := lowHalves imm k) hk (by
      rw [toNat_lowHalves]
      exact Nat.mod_lt _ (Nat.two_pow_pos _))
    simp only [Machine.block, Machine.exec, Machine.setReg_setReg, Option.bind_some]
    by_cases hd : d = .sp
    · simp [Machine.setReg, hd]
    · have hreg : (s.setReg d (lowHalves imm k)).reg d = lowHalves imm k := by
        simp [Machine.setReg, Machine.setGpr, Machine.reg, hd]
      rw [hreg, hclear, hsum]

/-- After the half-words below `k`, those from `k` on follow one by one. -/
theorem block_moveHalves (d : Gpr) (imm : UInt64) {n k : Nat} (hk : k + n ≤ 4) (s : Machine) :
    (s.setReg d (lowHalves imm k)).block ((List.range' k n).flatMap (moveHalf d imm)) =
      some (s.setReg d (lowHalves imm (k + n))) := by
  induction n generalizing k with
  | zero => rfl
  | succ n ih =>
    rw [List.range'_succ, List.flatMap_cons]
    have hcount : k + 1 + n = k + (n + 1) := by omega
    exact Machine.block_append (block_moveHalf d imm (by omega) s) (hcount ▸ ih (by omega))

/-- The half-word moves that make up a constant. -/
def constantMoves (d : Gpr) (imm : UInt64) : List Instr :=
  .movz d (half imm 0) (UInt8.ofNat (16 * 0)) :: (List.range' 1 3).flatMap (moveHalf d imm)

theorem bytes_movImm (d : Gpr) (imm : UInt64) :
    (Instr.movImm d imm).chunk.bytes = blockBytes (constantMoves d imm) := by
  have hfirst : imm.toUInt16 = half imm 0 := by simp [half]
  have hrest : ([16, 32, 48] : List UInt8) =
      (List.range' 1 3).map fun k => UInt8.ofNat (16 * k) := by decide
  rw [Instr.chunk, movImmWords, hrest, List.filterMap_map, List.flatMap_cons, hfirst]
  refine congrArg (le32 (movWide movzBase d (half imm 0) 0) ++ ·) (bytes_filterMap (fun k => ?_) _)
  unfold moveHalf
  by_cases hk : half imm k == 0
  · rw [Function.comp_apply, if_pos hk]
    exact congrArg (fun o : Option UInt32 => o.toList.flatMap le32) (if_pos hk)
  · rw [if_neg hk]
    exact congrArg (fun o : Option UInt32 => o.toList.flatMap le32) (if_neg hk)

theorem decodes_constantMoves {d : Gpr} (hd : d.num ≤ 31) (imm : UInt64) :
    ∀ i ∈ constantMoves d imm, i.Decodes := by
  refine List.forall_mem_cons.mpr ⟨decodes_movz hd _ (by decide), fun i hi => ?_⟩
  obtain ⟨k, hk, hi⟩ := List.mem_flatMap.mp hi
  exact decodes_moveHalf hd imm (by simp at hk; omega) i hi

theorem block_constantMoves (d : Gpr) (imm : UInt64) (s : Machine) :
    s.block (constantMoves d imm) = some (s.setReg d imm) := by
  have hzero : lowHalves imm 0 = 0 := by simp [lowHalves, Nat.mod_one]
  have hsum := or_half imm (k := 0) (by decide)
  rw [hzero, UInt64.zero_or] at hsum
  have hrest := block_moveHalves d imm (n := 3) (k := 1) (by decide) s
  rw [lowHalves_four] at hrest
  rw [constantMoves, Machine.block, Machine.exec, hsum]
  exact hrest

theorem sets_movImm {d : Gpr} (hd : d.num ≤ 31) (hsp : d ≠ .sp) (imm : UInt64) (s : Machine) :
    ∃ s', Target.aarch64.Carries core.step? (Instr.movImm d imm).chunk.bytes s s' ∧
      core.Sets none d imm s s' := by
  refine ⟨s.setBase d imm, ?_, sets_setBase s d imm⟩
  rw [bytes_movImm]
  refine carries_block (decodes_constantMoves hd imm) ?_
  rw [block_constantMoves, Machine.setReg_eq_setBase hsp]

end Arm64

theorem Target.computes_movImm {ar : Arith UInt32} {t : Target} {d : Gpr} (hd : t.HasGpr d)
    (imm : Int64) :
    t.Computes ar none (t.pick (.movImm d imm) (.movImm d imm.toUInt64)) d fun _ =>
      imm.toUInt64 := by
  refine computes_pick (f := fun _ _ => imm.toUInt64) (fun ht => ?_) fun ht => ?_
  · exact ⟨hd.x86 ht, fun s => ⟨_, rfl, X86.sets_setGpr s d _⟩⟩
  · obtain ⟨hd, hsp⟩ := hd.arm ht
    exact ⟨Arm64.gprFault_none.mpr hd, Arm64.sets_movImm hd hsp imm.toUInt64⟩

end JitGemm
