import Mathlib.Order.Interval.Set.Defs
import JitGemm.Proofs.Gemm.Block

/-!
# Panels tile C

C is cut into chunks of `nr` columns, and the panels of a call are the first of them, as many as its
columns need. No two have an element of C in common, and each element of the block is in the panel
of its column, also where C ends inside the last panel or goes on after the last column. All of this
asks for a width of the chunks, `nr` times the leading dimension, that is a word.
-/

namespace JitGemm

namespace Panel

variable {γ : Type}

-- ---------------------------------------------------------------------------
-- Chunks
-- ---------------------------------------------------------------------------

/-- `width` elements off the front, again and again until none are left. -/
def chunks (width : Nat) (xs : List γ) : List (List γ) :=
  if width = 0 ∨ xs = [] then [] else xs.take width :: chunks width (xs.drop width)
termination_by xs.length
decreasing_by
  rename_i h
  have hlen := List.length_pos_iff.mpr (mt Or.inr h)
  rw [List.length_drop]
  omega

theorem chunks_eq {width : Nat} (hwidth : 0 < width) (xs : List γ) :
    chunks width xs = (List.range (Size.ceilDiv xs.length width)).map fun p =>
      (xs.drop (p * width)).take width := by
  fun_induction chunks width xs with
  | case1 xs h =>
    obtain rfl : xs = [] := h.resolve_left (by omega)
    simp [Size.ceilDiv]
  | case2 xs h ih =>
    have hlen := List.length_pos_iff.mpr (mt Or.inr h)
    rw [ih, Size.ceilDiv_succ hwidth hlen, List.range_succ_eq_map, List.map_cons, List.map_map,
      List.length_drop, Nat.zero_mul, List.drop_zero]
    refine congrArg (xs.take width :: ·) (List.map_congr_left fun p _ => ?_)
    rw [List.drop_drop, Function.comp, Nat.succ_mul, Nat.add_comm width]

-- ---------------------------------------------------------------------------
-- What a panel has of C
-- ---------------------------------------------------------------------------

def positions (p : Panel) : Set Nat := Set.Ico p.start (p.start + p.length)

def elements (p : Panel) (xs : Array γ) : List γ := (xs.toList.drop p.start).take p.length

theorem getElem?_elements {p : Panel} {xs : Array γ} {i : Nat} (h : i < p.length) :
    (p.elements xs)[i]? = xs[p.start + i]? := by
  rw [elements, List.getElem?_take_of_lt h, List.getElem?_drop, Array.getElem?_toList]

/-- The panels are the first chunks, with any extents. -/
theorem split?_chunks (c : Array γ) (ldc nr n : Nat) :
    (split? c.size ldc nr n).map (List.map (elements · c)) =
      let width := Size.wrap (ldc * nr)
      if width = 0 then none
      else some ((chunks width c.toList).take (Size.ceilDiv n nr)) := by
  rw [split?]
  by_cases hwidth : Size.wrap (ldc * nr) = 0
  · simp only [hwidth, if_true, Option.map_none]
  · simp only [if_neg hwidth, Option.map_some]
    rw [chunks_eq (Nat.pos_of_ne_zero hwidth), ← List.map_take, List.take_range, List.map_map,
      Array.length_toList]
    refine congrArg some (List.map_congr_left fun p _ => ?_)
    -- a chunk past the end of C is cut short by the end of C
    simp only [Function.comp, elements, List.take_eq_take_iff, List.length_drop,
      Array.length_toList]
    omega

section

variable {s : GemmShape} {size nr : Nat}

theorem nth_apart {p q : Nat} (h : p < q) :
    ∀ x ∈ (nth s size nr p).positions, x ∉ (nth s size nr q).positions := by
  have hnext : (p + 1) * Size.wrap (s.ldc * nr) ≤ q * Size.wrap (s.ldc * nr) :=
    Nat.mul_le_mul_right _ h
  rw [Nat.succ_mul] at hnext
  rintro x ⟨-, hbefore⟩ ⟨hafter, -⟩
  simp only [nth] at hbefore hafter
  omega

theorem nth_inside (p : Nat) (h : p * Size.wrap (s.ldc * nr) < size) :
    (nth s size nr p).start + (nth s size nr p).length ≤ size := by
  simp only [nth]
  omega

end

end Panel

-- ---------------------------------------------------------------------------
-- Tilings
-- ---------------------------------------------------------------------------

/-- What is asked of the panels of C, of `nr` columns each, that are to hold the block. -/
structure GemmShape.Tiling {γ : Type} (s : GemmShape) (nr : Nat) (c : Array γ)
    (panels : List Panel) : Prop where
  count : panels.length = s.n ⌈/⌉ nr
  /-- The panels have the first chunks of C, in order. -/
  chunks : panels.map (Panel.elements · c) =
    (Panel.chunks (s.ldc * nr) c.toList).take (s.n ⌈/⌉ nr)
  inside : ∀ panel ∈ panels, panel.start + panel.length ≤ c.size
  apart : panels.Pairwise fun p q => ∀ x ∈ p.positions, x ∉ q.positions
  /-- Row `i` of column `jj` of a panel is in it, and is row `i` of the column in C. -/
  element : ∀ p jj, jj < nr → p * nr + jj < s.n → ∀ i < s.m, ∃ panel, panels[p]? = some panel ∧
    i + jj * s.ldc < panel.length ∧
    panel.start + (i + jj * s.ldc) = i + (p * nr + jj) * s.ldc ∧
    (panel.elements c)[i + jj * s.ldc]? = s.element? c i (p * nr + jj)

/-- A C that reaches the last element of the block, with its columns apart, is cut into panels that
tile it. -/
theorem GemmShape.columns_tiled {γ : Type} {s : GemmShape} {nr : Nat} {c : Array γ} (hm : 0 < s.m)
    (hnr : 0 < nr) (hrows : s.m ≤ s.ldc) (hlength : (s.n - 1) * s.ldc + s.m ≤ c.size)
    (hword : s.ldc * nr < Size.modulus) :
    ∃ panels, Panel.split? c.size s.ldc nr s.n = some panels ∧ s.Tiling nr c panels := by
  have hin {i j : Nat} (hi : i < s.m) (hj : j < s.n) : i + j * s.ldc < c.size :=
    Nat.lt_of_lt_of_le (Matrix.exactIndex_lt_extent (x := s.c .f32) hi hj) hlength
  have hwrap := Size.wrap_of_lt hword
  have hwidth : 0 < s.ldc * nr := Nat.mul_pos (Nat.lt_of_lt_of_le hm hrows) hnr
  have hreach : ∀ p, p * nr < s.n → p * Size.wrap (s.ldc * nr) < c.size := fun p hp => by
    have hfirst := hin hm hp
    rwa [Nat.zero_add, Nat.mul_assoc, Nat.mul_comm nr, ← hwrap] at hfirst
  have hsplit := Panel.split?_of_reach hnr (by rwa [hwrap]) hreach
  refine ⟨_, hsplit, ?_⟩
  exact {
    count := by rw [List.length_map, List.length_range, Size.ceilDiv_eq hnr]
    chunks := by
      have hchunks := Panel.split?_chunks c s.ldc nr s.n
      rw [hsplit] at hchunks
      simp only [hwrap, if_neg hwidth.ne', Option.map_some, Option.some.injEq] at hchunks
      rw [hchunks, Size.ceilDiv_eq hnr]
    inside := by
      intro panel hpanel
      obtain ⟨p, hp, rfl⟩ := List.mem_map.mp hpanel
      exact Panel.nth_inside p (hreach p ((Size.lt_ceilDiv hnr).mp (List.mem_range.mp hp)))
    apart := List.pairwise_map.mpr (List.pairwise_lt_range.imp Panel.nth_apart)
    element := by
      intro p jj hjj hj i hi
      have hp : p < Size.ceilDiv s.n nr := (Size.lt_ceilDiv hnr).mpr (by omega)
      obtain ⟨hlocal, hglobal⟩ := Panel.nth_wide hrows hword hi hjj (hin hi hj)
      refine ⟨Panel.nth s c.size nr p, ?_, hlocal, hglobal, ?_⟩
      · rw [List.getElem?_map, List.getElem?_range hp, Option.map_some]
      · rw [Panel.getElem?_elements hlocal, hglobal, GemmShape.element?] }

/-- Five columns of two rows, three apart. -/
def oddColumns : GemmShape := ⟨.noTrans, .noTrans, 2, 5, 1, 2, 1, 3⟩

/-- C ends with the block, inside the last panel, or goes on after the last column. -/
theorem oddColumns_tiled :
    oddColumns.Tiling 2 (Array.range 14) [⟨0, 6⟩, ⟨6, 6⟩, ⟨12, 2⟩] ∧
      oddColumns.Tiling 2 (Array.range 40) [⟨0, 6⟩, ⟨6, 6⟩, ⟨12, 6⟩] := by
  obtain ⟨panels, hsplit, hshort⟩ : ∃ panels,
      Panel.split? (Array.range 14).size oddColumns.ldc 2 oddColumns.n = some panels ∧
        oddColumns.Tiling 2 (Array.range 14) panels :=
    GemmShape.columns_tiled (by decide) (by decide) (by decide) (by decide) (by decide)
  obtain ⟨panels', hsplit', hlong⟩ : ∃ panels,
      Panel.split? (Array.range 40).size oddColumns.ldc 2 oddColumns.n = some panels ∧
        oddColumns.Tiling 2 (Array.range 40) panels :=
    GemmShape.columns_tiled (by decide) (by decide) (by decide) (by decide) (by decide)
  obtain rfl := Option.some.inj (hsplit.symm.trans
    (by decide : _ = some [⟨0, 6⟩, ⟨6, 6⟩, ⟨12, 2⟩]))
  obtain rfl := Option.some.inj (hsplit'.symm.trans
    (by decide : _ = some [⟨0, 6⟩, ⟨6, 6⟩, ⟨12, 6⟩]))
  exact ⟨hshort, hlong⟩

end JitGemm
