import JitGemm.Ieee.Single
import JitGemm.Proofs.Vector.Aliasing
import Mathlib.Algebra.Field.Rat
import Mathlib.Algebra.Order.Ring.Rat
import Mathlib.Order.WithBot

/-!
# Comparison masks

Which lanes a comparison fills with ones. A predicate number says, for each way in which two singles
can stand to each other, whether the lane is filled; when one of them is a NaN they stand in no
order. The predicates of the legacy family that are used for greater and greater-or-equal are
negations, and so they hold of every pair without an order.
-/

namespace JitGemm

-- ---------------------------------------------------------------------------
-- The order of singles
-- ---------------------------------------------------------------------------

namespace Ieee

/-- The point of the extended line that a datum stands for. A NaN stands for none. -/
def Datum.value? : Datum → Option (WithBot (WithTop ℚ))
  | .nan => none
  | .inf negative => some (if negative then ⊥ else ((⊤ : WithTop ℚ) : WithBot (WithTop ℚ)))
  | .finite negative m e =>
    some (((if negative then -(m : ℚ) else m) * 2 ^ e : ℚ) : WithTop ℚ)

inductive Relation where
  | less
  | equal
  | greater
  | unordered
  deriving DecidableEq, Repr

def Datum.relation (x y : Datum) : Relation :=
  match x.value?, y.value? with
  | some u, some v => if u < v then .less else if u = v then .equal else .greater
  | _, _ => .unordered

end Ieee

open Ieee (Datum Relation)

namespace Single

def value? (x : Single) : Option (WithBot (WithTop ℚ)) := x.toDatum.value?

theorem isNan_iff (x : Single) : x.isNan = true ↔ x.value? = none := by
  have hnan : x.isNan = true ↔ 0x7F800000 < x.bits.toNat % 2 ^ 31 := by
    rw [isNan, decide_eq_true_iff, UInt32.lt_iff_toNat_lt, toNat_magnitude]
    rfl
  have hvalue : x.value? = none ↔
      x.bits.toNat / 2 ^ 23 % 2 ^ 8 = 2 ^ 8 - 1 ∧ x.bits.toNat % 2 ^ 23 ≠ 0 := by
    simp only [value?, toDatum, Datum.ofBits, Ieee.Format.binary32, Nat.shiftRight_eq_div_pow,
      Nat.one_shiftLeft, Nat.reduceSub]
    split
    · split <;> simp [*, Datum.value?]
    · split <;> simp [*, Datum.value?]
  rw [hnan, hvalue]
  omega

end Single

-- ---------------------------------------------------------------------------
-- Predicates
-- ---------------------------------------------------------------------------

/-- For each predicate the relations that satisfy it: equal, less, less or equal, unordered, their
negations, and eight more of which the last holds always. -/
def predicateTable : List (List Relation) :=
  [[.equal], [.less], [.less, .equal], [.unordered],
    [.less, .greater, .unordered], [.equal, .greater, .unordered], [.greater, .unordered],
    [.less, .equal, .greater],
    [.equal, .unordered], [.less, .unordered], [.less, .equal, .unordered], [],
    [.less, .greater], [.equal, .greater], [.greater],
    [.less, .equal, .greater, .unordered]]

/-- Whether predicate `n` holds. Its fifth bit only says which NaNs are an exception. -/
def satisfies (n : UInt8) (r : Relation) : Bool :=
  (predicateTable.getD (n &&& 15).toNat []).contains r

def filled (b : Bool) : UInt32 := if b then 0xFFFFFFFF else 0

/-- `ops` with the comparison of singles that the predicate number asks for. -/
def BlockOps.onSingles (ops : BlockOps) : BlockOps :=
  { ops with
    compare := fun n x y i =>
      filled (satisfies n (Datum.relation (Single.toDatum ⟨x i⟩) (Single.toDatum ⟨y i⟩))) }

inductive Comparison where
  | greater
  | greaterEq
  deriving DecidableEq, Repr

namespace Comparison

def op : Comparison → VecOp
  | greater => .cmpGt
  | greaterEq => .cmpGe

def call (c : Comparison) (d a b : Vreg) : VecCall :=
  match c with
  | greater => .cmpGt d a (.reg b)
  | greaterEq => .cmpGe d a (.reg b)

def predicate (c : Comparison) (low : Lowering) : UInt8 :=
  match c with
  | greater => if low = .legacy then 6 else 0x0E
  | greaterEq => if low = .legacy then 5 else 0x0D

/-- The relations in which two numbers compare so. -/
def relations : Comparison → List Relation
  | greater => [.greater]
  | greaterEq => [.equal, .greater]

def Holds (c : Comparison) (x y : Single) : Prop :=
  ∃ u ∈ x.value?, ∃ v ∈ y.value?, match c with
    | greater => v < u
    | greaterEq => v ≤ u

instance (c : Comparison) (x y : Single) : Decidable (c.Holds x y) := by
  unfold Holds
  cases c <;> infer_instance

theorem relation_unordered (x y : Single) :
    x.toDatum.relation y.toDatum = .unordered ↔ x.isNan ∨ y.isNan := by
  simp only [x.isNan_iff, y.isNan_iff, Single.value?, Datum.relation]
  cases x.toDatum.value? with
  | none => simp
  | some u =>
    cases y.toDatum.value? with
    | none => simp
    | some v =>
      simp only [reduceCtorEq, or_self, iff_false]
      split
      · simp
      · split <;> simp

theorem mem_relations (c : Comparison) (x y : Single) :
    x.toDatum.relation y.toDatum ∈ c.relations ↔ c.Holds x y := by
  simp only [Holds, Single.value?, Datum.relation]
  cases x.toDatum.value? with
  | none => cases c <;> simp [relations]
  | some u =>
    cases y.toDatum.value? with
    | none => cases c <;> simp [relations]
    | some v =>
      rcases lt_trichotomy u v with h | rfl | h
      · cases c <;> simp [relations, h, h.not_gt]
      · cases c <;> simp [relations]
      · cases c <;> simp [relations, h, h.not_gt, h.ne', h.le]

/-- Under the legacy family a predicate takes in what has no order. -/
theorem satisfies_predicate (c : Comparison) (low : Lowering) (r : Relation) :
    satisfies (c.predicate low) r = true ↔
      r ∈ c.relations ∨ low = .legacy ∧ r = .unordered := by
  cases c <;> cases low <;> cases r <;> decide

/-- The lane that a lowering makes of two singles. -/
def mask (c : Comparison) (low : Lowering) (x y : Single) : UInt32 :=
  filled (c.Holds x y ∨ low = .legacy ∧ (x.isNan ∨ y.isNan))

theorem compare_onSingles (c : Comparison) (low : Lowering) (ops : BlockOps) (x y : Quad)
    (i : Fin 4) :
    ops.onSingles.compare (c.predicate low) x y i = c.mask low ⟨x i⟩ ⟨y i⟩ := by
  refine congrArg filled ?_
  rw [Bool.eq_iff_iff, satisfies_predicate, mem_relations, relation_unordered,
    decide_eq_true_iff]

/-- The masks of the two lowerings differ where there is no order. -/
theorem mask_eq_iff (c : Comparison) (x y : Single) :
    c.mask .legacy x y = c.mask .vex x y ↔ ¬ x.isNan ∧ ¬ y.isNan := by
  have hnan : x.isNan ∨ y.isNan → ¬ c.Holds x y := by
    rw [← relation_unordered, ← mem_relations]
    intro h
    rw [h]
    cases c <;> decide
  have hfilled : ∀ b b' : Bool, filled b = filled b' ↔ b = b' := by decide
  simp only [mask, hfilled, decide_eq_decide, true_and, reduceCtorEq, false_and, or_false,
    or_iff_left_iff_imp, ← not_or]
  exact ⟨fun h hor => hnan hor (h hor), fun h hor => absurd hor h⟩

-- ---------------------------------------------------------------------------
-- Calls
-- ---------------------------------------------------------------------------

/-- Comparisons are lowered as plain arithmetic is. -/
theorem lowering_eq (c : Comparison) {t : OpTable} {low : Lowering}
    (h : t.lowering? c.op = some low) :
    t.baseLowering = low ∧ (low = .legacy ∨ low = .vex) := by
  rcases t with ⟨target, len, caps⟩
  simp only [OpTable.lowering?] at h
  unfold OpTable.baseLowering OpTable.vex
  cases ht : target.isX86 with
  | false => cases c <;> simp [ht, op, VecOp.lowerAsimd] at h
  | true =>
    simp only [ht, ↓reduceIte] at h
    cases len with
    | v128 =>
      delta VecOp.lower128 at h
      cases havx : caps.contains .avx <;> cases c <;>
        simp [op, VecOp.isFma, havx] at h <;> subst h <;> simp
    | v256 =>
      delta VecOp.lower256 at h
      cases havx : caps.contains .avx <;> cases c <;>
        simp [op, VecOp.isFma, VecOp.needsAvx2, havx] at h <;> subst h <;> simp
    | v512 =>
      delta VecOp.lower512 at h
      cases c <;> simp [op] at h

theorem setsTo (c : Comparison) (ops : BlockOps) {t : OpTable} {low : Lowering}
    (hlow : t.lowering? c.op = some low) {d a b : Vreg}
    (hfree : low = .legacy → d = a ∨ b ≠ d ∨ d ≠ t.scratchVreg ∧ a ≠ t.scratchVreg)
    (hclean : ∀ e ∈ t.vector (c.call d a b), e.Clean) :
    t.SetsTo ops.onSingles (some t.scratchVreg) (t.vector (c.call d a b)) d fun r q i =>
      c.mask low ⟨r a q i⟩ ⟨r b q i⟩ := by
  have hscratch : t.lowering? c.op = some .legacy → d = a ∨ b ≠ d ∨ c.op.commutes ∨
      some t.scratchVreg = some t.scratchVreg ∧ d ≠ t.scratchVreg ∧ a ≠ t.scratchVreg := by
    intro hlegacy
    obtain rfl : low = .legacy := Option.some.inj (hlow.symm.trans hlegacy)
    rcases hfree rfl with h | h | h
    · exact .inl h
    · exact .inr (.inl h)
    · exact .inr (.inr (.inr ⟨rfl, h⟩))
  have hbase := (c.lowering_eq hlow).1
  have hpredicate : ∀ low', t.lowering? c.op = some low' →
      ∀ n ∈ some (c.predicate low), n < (t.form low').predicates := by
    intro low' hlow' n hn
    obtain rfl := Option.some.inj hn
    have hlt : t.comparePredicate (c.predicate .legacy) (c.predicate .vex) <
        (t.form low').predicates :=
      OpTable.predicate_lt (by cases c <;> simp [op]) hlow' (by cases c <;> decide)
        (by cases c <;> decide)
    cases c <;> simpa [OpTable.comparePredicate, predicate, hbase] using hlt
  have hcall : t.vector (c.call d a b) = t.binary c.op d a (.reg b) (some (c.predicate low)) := by
    cases c <;> simp [OpTable.vector, call, op, OpTable.comparePredicate, predicate, hbase]
  rw [hcall] at hclean ⊢
  intro r
  obtain ⟨r', htakes, hsets⟩ := OpTable.binary_setsTo (k := ops.onSingles.compare (c.predicate low))
    (by cases c <;> constructor) hpredicate hscratch hclean r
  exact ⟨r', htakes, hsets.congr fun q _ => funext fun i => c.compare_onSingles low ops _ _ i⟩

/-- When no error is left, a comparison fills the lanes of its destination in which the first source
is greater, or greater or equal, and under the legacy lowering also those in which one of the two is
a NaN. So the masks of the two lowerings are the same in a lane just when neither is. In the legacy
form a second source that is the destination has to be saved, and then neither of the others may be
the scratch register; apart from this the registers are any. -/
theorem masks_lanes (ops : BlockOps) (g : Generator) (c : Comparison) {low : Lowering}
    (hlow : g.table.lowering? c.op = some low) {d a b : Vreg}
    (hfree : low = .legacy → d = a ∨ b ≠ d ∨ d ≠ g.table.scratchVreg ∧ a ≠ g.table.scratchVreg)
    (hok : (g.vector (c.call d a b)).buffer.error = none) :
    (low = .legacy ∨ low = .vex) ∧
      (∃ code, (g.vector (c.call d a b)).buffer.bytes.toList = g.buffer.bytes.toList ++ code ∧
        ∀ r : Registers, ∃ r', r.run? ops.onSingles g.table.target code = some r' ∧
          ∀ q : Fin 4, 4 * q.val < g.table.len.lanes → ∀ i,
            r' d q i = c.mask low ⟨r a q i⟩ ⟨r b q i⟩) ∧
      ∀ x y : Single, c.mask .vex x y = filled (c.Holds x y) ∧
        (c.mask .legacy x y = c.mask .vex x y ↔ ¬ x.isNan ∧ ¬ y.isNan) := by
  refine ⟨(c.lowering_eq hlow).2, ⟨_, g.bytes_vector _, fun r => ?_⟩, fun x y => ⟨?_, ?_⟩⟩
  · obtain ⟨r', htakes, hsets⟩ := c.setsTo ops hlow hfree (ok_foldl hok).2 r
    exact ⟨r', htakes.run, fun q hq i => congrFun (hsets.low q hq) i⟩
  · simp [mask]
  · exact c.mask_eq_iff x y

/-- A comparison onto its second source in the legacy form. -/
theorem greater_onto_second :
    let g : Generator := { name := "k", origin := "k", table := ⟨.sysV, .v128, .empty⟩ }
    let c : VecCall := greater.call ⟨2⟩ ⟨1⟩ ⟨2⟩
    g.table.lowering? greater.op = some .legacy ∧
      (Lowering.legacy = .legacy → (⟨2⟩ : Vreg) = ⟨1⟩ ∨ (⟨2⟩ : Vreg) ≠ ⟨2⟩ ∨
        ⟨2⟩ ≠ g.table.scratchVreg ∧ ⟨1⟩ ≠ g.table.scratchVreg) ∧
      (g.vector c).buffer.error = none ∧
      ∃ code, (g.vector c).buffer.bytes.toList = g.buffer.bytes.toList ++ code ∧
        ∀ r : Registers, ∃ r', r.run? BlockOps.words.onSingles g.table.target code = some r' ∧
          ∀ q : Fin 4, 4 * q.val < g.table.len.lanes → ∀ i,
            r' ⟨2⟩ q i = greater.mask .legacy ⟨r ⟨1⟩ q i⟩ ⟨r ⟨2⟩ q i⟩ := by
  intro g c
  have hlow : g.table.lowering? greater.op = some .legacy := by decide
  have hfree : Lowering.legacy = .legacy → (⟨2⟩ : Vreg) = ⟨1⟩ ∨ (⟨2⟩ : Vreg) ≠ ⟨2⟩ ∨
      ⟨2⟩ ≠ g.table.scratchVreg ∧ ⟨1⟩ ≠ g.table.scratchVreg := by decide
  have hok : (g.vector c).buffer.error = none := by decide
  exact ⟨hlow, hfree, hok, (masks_lanes BlockOps.words g greater hlow hfree hok).2.1⟩

/-- A NaN against one: no number is greater than another here, and yet the legacy code fills the
lane. The VEX code does not. -/
theorem nan_filled_by_legacy :
    let r : Registers := fun v _ _ => if v = ⟨1⟩ then 0x7FC00000 else 0x3F800000
    let c : VecCall := greater.call ⟨0⟩ ⟨1⟩ ⟨2⟩
    let run := fun caps => r.run? BlockOps.words.onSingles .sysV
      (OpTable.code ⟨.sysV, .v128, caps⟩ c)
    ¬ greater.Holds ⟨0x7FC00000⟩ ⟨0x3F800000⟩ ∧
      (∃ r', run .empty = some r' ∧ r' ⟨0⟩ 0 0 = 0xFFFFFFFF) ∧
      ∃ r', run (.ofList [.avx]) = some r' ∧ r' ⟨0⟩ 0 0 = 0 := by
  intro r c run
  have hnan : (Single.mk 0x7FC00000).value? = none := (Single.isNan_iff _).mp (by decide)
  have hholds : ¬ greater.Holds ⟨0x7FC00000⟩ ⟨0x3F800000⟩ := by simp [Holds, hnan]
  have hlane : ∀ caps low, (OpTable.mk .sysV .v128 caps).lowering? .cmpGt = some low →
      (∀ e ∈ (OpTable.mk .sysV .v128 caps).vector c, e.Clean) →
      ∃ r', run caps = some r' ∧ r' ⟨0⟩ 0 0 = filled (low = .legacy) := by
    intro caps low hlow hclean
    obtain ⟨r', htakes, hsets⟩ := greater.setsTo BlockOps.words hlow
      (fun _ => .inr (.inl (by decide))) hclean r
    have hlow : 4 * (0 : Fin 4).val < VecLen.v128.lanes := by decide
    refine ⟨r', htakes.run, (congrFun (hsets.low 0 hlow) 0).trans ?_⟩
    have hfirst : (Single.mk 0x7FC00000).isNan = true := by decide
    simp [mask, r, hholds, hfirst]
  refine ⟨hholds, ?_, ?_⟩
  · exact hlane .empty .legacy (by decide) (ok_foldl (b := {}) (by decide)).2
  · exact hlane (.ofList [.avx]) .vex (by decide) (ok_foldl (b := {}) (by decide)).2

end Comparison

end JitGemm
