import Mathlib.Algebra.BigOperators.Ring.List
import Mathlib.Algebra.GroupWithZero.Nat
import JitGemm.Work.Team

/-!
# Odometers count

The digits of consecutive numbers are consecutive odometer positions, and those of all numbers below
the size of a box are its coordinates in row-major order. So a walk from any position is a stretch
of the numbers.
-/

namespace JitGemm.Work

/-- All coordinates of a box, the last one fastest. -/
def coordinates : List Nat → List (List Nat)
  | [] => [[]]
  | d :: ds => (List.range d).flatMap fun i => (coordinates ds).map (i :: ·)

-- ---------------------------------------------------------------------------
-- Coordinates of a box
-- ---------------------------------------------------------------------------

theorem mem_coordinates {dims cs : List Nat} :
    cs ∈ coordinates dims ↔ List.Forall₂ (· < ·) cs dims := by
  induction dims generalizing cs with
  | nil => simp [coordinates]
  | cons d ds ih =>
    simp only [coordinates, List.mem_flatMap, List.mem_range, List.mem_map, ih]
    constructor
    · rintro ⟨i, hi, low, hlow, rfl⟩
      exact .cons hi hlow
    · rintro (_ | ⟨hi, hlow⟩)
      exact ⟨_, hi, _, hlow, rfl⟩

/-- Row-major order is the lexicographic one. -/
theorem coordinates_sorted (dims : List Nat) : (coordinates dims).Pairwise (· < ·) := by
  induction dims with
  | nil => simp [coordinates]
  | cons d ds ih =>
    rw [coordinates, List.pairwise_flatMap]
    constructor
    · intro i _
      rw [List.pairwise_map]
      exact ih.imp fun h => List.cons_lt_cons_iff.mpr (.inr ⟨rfl, h⟩)
    · refine List.pairwise_lt_range.imp fun hij => ?_
      simp only [List.mem_map]
      rintro _ ⟨low, _, rfl⟩ _ ⟨low', _, rfl⟩
      exact List.cons_lt_cons_iff.mpr (.inl hij)

theorem coordinates_eq_nil {dims : List Nat} (h : 0 ∈ dims) : coordinates dims = [] := by
  induction dims with
  | nil => simp at h
  | cons d ds ih =>
    rcases List.mem_cons.mp h with rfl | h
    · rfl
    · simp [coordinates, ih h]

namespace Odometer

-- ---------------------------------------------------------------------------
-- Digits
-- ---------------------------------------------------------------------------

theorem snd_digits (dims : List Nat) (n : Nat) : (digits dims n).2 = n / dims.prod := by
  induction dims with
  | nil => simp [digits]
  | cons d ds ih => simp only [digits, ih, List.prod_cons, Nat.div_div_eq_div_mul, Nat.mul_comm d]

theorem fst_digits_cons (d : Nat) (ds : List Nat) (n : Nat) :
    (digits (d :: ds) n).1 = n / ds.prod % d :: (digits ds n).1 := by
  rw [digits, ← snd_digits]

theorem fst_digits_add (dims : List Nat) (rounds n : Nat) :
    (digits dims (rounds * dims.prod + n)).1 = (digits dims n).1 := by
  induction dims generalizing rounds with
  | nil => rfl
  | cons d ds ih =>
    rw [fst_digits_cons, fst_digits_cons, List.prod_cons, ← Nat.mul_assoc, ih]
    rcases Nat.eq_zero_or_pos ds.prod with hzero | hpos
    · simp [hzero]
    · rw [Nat.add_comm, Nat.add_mul_div_right _ _ hpos, Nat.add_mul_mod_self_right]

theorem coordinates_eq (dims : List Nat) :
    coordinates dims = (List.range dims.prod).map fun n => (digits dims n).1 := by
  induction dims with
  | nil => rfl
  | cons d ds ih =>
    have hrows : List.range (d * ds.prod) =
        (List.range d).flatMap fun i => (List.range ds.prod).map (i * ds.prod + ·) := by
      induction d with
      | zero => simp
      | succ d ihd => rw [Nat.succ_mul, List.range_add, ihd, List.range_succ]; simp
    rw [coordinates, ih, List.prod_cons, hrows, List.map_flatMap]
    refine List.flatMap_congr fun i hi => ?_
    rw [List.map_map, List.map_map]
    refine List.map_congr_left fun n hn => ?_
    have hi := List.mem_range.mp hi
    have hn := List.mem_range.mp hn
    have hdiv : (i * ds.prod + n) / ds.prod = i := by
      rw [Nat.add_comm, Nat.add_mul_div_right _ _ (by omega), Nat.div_eq_of_lt hn, Nat.zero_add]
    simp only [Function.comp_apply]
    rw [fst_digits_cons, fst_digits_add, hdiv, Nat.mod_eq_of_lt hi]

/-- A step leads from a number to the next one, and carries out of the box at a whole number of
boxes. -/
theorem step_digits {dims : List Nat} (h : ∀ d ∈ dims, 0 < d) (n : Nat) :
    step dims (digits dims n).1 = ((digits dims (n + 1)).1, decide (dims.prod ∣ n + 1)) := by
  induction dims with
  | nil => simp [step, digits]
  | cons d ds ih =>
    have hd := h d List.mem_cons_self
    have ih := ih fun e he => h e (List.mem_cons_of_mem _ he)
    simp only [fst_digits_cons, step, ih, decide_eq_true_eq, List.prod_cons]
    by_cases hcarry : ds.prod ∣ n + 1
    · have hnext : (n + 1) / ds.prod = n / ds.prod + 1 := by rw [Nat.succ_div, if_pos hcarry]
      have hround : d * ds.prod ∣ n + 1 ↔ d ∣ n / ds.prod + 1 := by
        rw [← hnext, Nat.dvd_div_iff_mul_dvd hcarry, Nat.mul_comm]
      rw [if_pos hcarry, hnext]
      by_cases hlast : n / ds.prod % d + 1 < d
      · have hmod : (n / ds.prod + 1) % d = n / ds.prod % d + 1 := by
          rw [← Nat.mod_add_mod, Nat.mod_eq_of_lt hlast]
        have hnot : ¬ d ∣ n / ds.prod + 1 := by
          rw [Nat.dvd_iff_mod_eq_zero, hmod]
          omega
        simp [if_pos hlast, hmod, hround, hnot]
      · have hfull : n / ds.prod % d + 1 = d := by
          have := Nat.mod_lt (n / ds.prod) hd
          omega
        have hmod : (n / ds.prod + 1) % d = 0 := by rw [← Nat.mod_add_mod, hfull, Nat.mod_self]
        simp [if_neg hlast, hmod, hround, Nat.dvd_iff_mod_eq_zero]
    · have hsame : (n + 1) / ds.prod = n / ds.prod := by
        rw [Nat.succ_div, if_neg hcarry, Nat.add_zero]
      have hnot : ¬ d * ds.prod ∣ n + 1 := fun hdvd => hcarry (dvd_of_mul_left_dvd hdvd)
      simp [hcarry, hsame, hnot]

theorem advance_start {dims : List Nat} (h : ∀ d ∈ dims, 0 < d) (n : Nat) :
    (start dims n).advance = (start dims (n + 1), !decide (dims.prod ∣ n + 1)) := by
  simp [start, advance, step_digits h]

theorem walk_start {dims : List Nat} (h : ∀ d ∈ dims, 0 < d) (n k : Nat) :
    walk k (start dims n) = (List.range' n k).map fun i => (digits dims i).1 := by
  induction k generalizing n with
  | zero => rfl
  | succ k ih =>
    rw [walk, advance_start h, ih, List.range'_succ, List.map_cons]
    rfl

end Odometer

end JitGemm.Work
