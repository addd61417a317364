import JitGemm.Frame
import JitGemm.Proofs.X86.Memory

/-!
# Save areas

A frame keeps the registers of its convention in one area above the working stack: the general ones
from the low end up, eight bytes each, and above them the low parts of the vector registers.
-/

namespace JitGemm

open X86 (Memory Span Apart)

namespace Target

/-- The general registers in the order of their slots. Pushes fill the area downwards; on AArch64
the frame and link registers come first. -/
def keptGprs : Target → List Gpr
  | aarch64 => .fp :: .lr :: aarch64.savedGprs
  | t => t.savedGprs.reverse

def gprArea (t : Target) : Nat := 8 * t.keptGprs.length

def saveArea (t : Target) : Nat := t.gprArea + t.vregArea

end Target

-- ---------------------------------------------------------------------------
-- Slots
-- ---------------------------------------------------------------------------

section

variable (m : Memory)

/-- From an address on, memory holds the values of general registers. -/
def HoldsGprs (value : Gpr → UInt64) : UInt64 → List Gpr → Prop
  | _, [] => True
  | a, r :: rs => m.read64 a = value r ∧ HoldsGprs value (a + UInt64.ofNat 8) rs

/-- From an address on, memory holds the low `size` bytes of vector registers, as words. -/
def HoldsVregs (size : Nat) (word : Vreg → Nat → UInt32) : UInt64 → List Vreg → Prop
  | _, [] => True
  | a, v :: vs =>
    (∀ j < size / 4, m.read32 (a + UInt64.ofNat (4 * j)) = word v j) ∧
      HoldsVregs size word (a + UInt64.ofNat size) vs

/-- The save area from `a` on holds what a frame preserves. -/
structure Holds (t : Target) (a : UInt64) (value : Gpr → UInt64) (word : Vreg → Nat → UInt32) :
    Prop where
  gprs : HoldsGprs m value a t.keptGprs
  vregs : HoldsVregs m t.vregSaveBytes word (a + UInt64.ofNat t.gprArea) t.savedVregs

end

section

variable {m m' : Memory} {value value' : Gpr → UInt64} {word word' : Vreg → Nat → UInt32}

theorem HoldsGprs.congr {a : UInt64} {rs : List Gpr} (h : HoldsGprs m value a rs)
    (hm : ∀ x, Span a (8 * rs.length) x → m' x = m x) (hvalue : ∀ r ∈ rs, value' r = value r) :
    HoldsGprs m' value' a rs := by
  induction rs generalizing a with
  | nil => trivial
  | cons r rs ih =>
    rw [List.length_cons] at hm
    rw [List.forall_mem_cons] at hvalue
    refine ⟨?_, ih h.2 (fun x hx => hm x (hx.shift (by omega))) hvalue.2⟩
    rw [hvalue.1, ← h.1]
    exact X86.Memory.read64_congr fun x hx => hm x (hx.mono (by omega))

theorem HoldsVregs.congr {size : Nat} {a : UInt64} {vs : List Vreg}
    (h : HoldsVregs m size word a vs) (hm : ∀ x, Span a (size * vs.length) x → m' x = m x)
    (hword : ∀ v ∈ vs, word' v = word v) : HoldsVregs m' size word' a vs := by
  induction vs generalizing a with
  | nil => trivial
  | cons v vs ih =>
    rw [List.length_cons, Nat.mul_succ] at hm
    rw [List.forall_mem_cons] at hword
    refine ⟨fun j hj => ?_, ih h.2 (fun x hx => hm x (hx.shift (by omega))) hword.2⟩
    rw [hword.1, ← h.1 j hj]
    exact X86.Memory.read32_congr fun x hx => hm x (hx.shift (by omega))

theorem holdsGprs_append {a : UInt64} {rs qs : List Gpr} :
    HoldsGprs m value a (rs ++ qs) ↔
      HoldsGprs m value a rs ∧ HoldsGprs m value (a + UInt64.ofNat (8 * rs.length)) qs := by
  induction rs generalizing a with
  | nil => simp [HoldsGprs]
  | cons r rs ih =>
    have hbehind : a + UInt64.ofNat 8 + UInt64.ofNat (8 * rs.length) =
        a + UInt64.ofNat (8 * (rs.length + 1)) := by
      rw [X86.offset_add, Nat.mul_succ, Nat.add_comm]
    simp only [List.cons_append, HoldsGprs, ih, List.length_cons, hbehind, and_assoc]

/-- What a save area holds depends on its bytes alone. -/
theorem Holds.congr {t : Target} {a : UInt64} (h : Holds m t a value word)
    (hm : ∀ x, Span a t.saveArea x → m' x = m x) : Holds m' t a value word where
  gprs := h.gprs.congr (fun x hx => hm x (hx.mono (Nat.le_add_right _ _))) fun _ _ => rfl
  vregs := by
    have hsize : t.gprArea + t.vregSaveBytes * t.savedVregs.length = t.saveArea := by
      rw [Target.saveArea, Target.vregArea, Nat.mul_comm]
    exact h.vregs.congr (fun x hx => hm x (hx.shift (Nat.le_of_eq hsize))) fun _ _ => rfl

end

end JitGemm
