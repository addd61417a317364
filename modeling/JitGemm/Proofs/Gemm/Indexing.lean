import Mathlib.Order.Bounds.Basic
import JitGemm.Proofs.Gemm.Block

/-!
# Indices of operands

A leading dimension that covers a stored column keeps the elements of an operand apart, and the last
stored one decides how long a buffer must be. Indices and lengths are found in 64 bits; they are
the exact ones for every operand whose extent is a word, and no length passes for one whose extent
is not.
-/

namespace JitGemm.Matrix

open Size (Arithmetic)

-- ---------------------------------------------------------------------------
-- Exact positions
-- ---------------------------------------------------------------------------

/-- Where a way to index puts the elements of an operand. -/
def positions (x : Matrix) (index : Nat → Nat → Nat) : Set Nat :=
  {i | ∃ r < x.rows, ∃ c < x.cols, index r c = i}

section

variable {x : Matrix} {r c r' c' : Nat}

theorem rowsStored_le_ld (h : x.ldValid = true) : x.rowsStored ≤ x.ld := by
  rw [ldValid, decide_eq_true_eq] at h
  omega

theorem colsStored_pos (hrows : 0 < x.rows) (hcols : 0 < x.cols) : 0 < x.colsStored := by
  rw [colsStored]
  split <;> assumption

theorem positions_congr {f g : Nat → Nat → Nat} (h : ∀ r < x.rows, ∀ c < x.cols, f r c = g r c) :
    x.positions f = x.positions g := by
  ext i
  exact exists_congr fun r => and_congr_right fun hr => exists_congr fun c =>
    and_congr_right fun hc => by rw [h r hr c hc]

theorem exactIndex_inj (hld : x.rowsStored ≤ x.ld) (hr : r < x.rows) (hc : c < x.cols)
    (hr' : r' < x.rows) (hc' : c' < x.cols) (h : x.exactIndex r c = x.exactIndex r' c') :
    r = r' ∧ c = c' := by
  have hapart {i j i' j' : Nat} (hi : i < x.ld) (hi' : i' < x.ld)
      (heq : i + j * x.ld = i' + j' * x.ld) : i = i' ∧ j = j' := by
    obtain ⟨hmod, hdiv⟩ := GemmShape.position_mod_div hi j
    obtain ⟨hmod', hdiv'⟩ := GemmShape.position_mod_div hi' j'
    exact ⟨by rw [← hmod, heq, hmod'], by rw [← hdiv, heq, hdiv']⟩
  rw [rowsStored] at hld
  rw [exactIndex, exactIndex] at h
  cases htrans : x.trans.isTrans <;> rw [htrans] at hld h
  · exact hapart (Nat.lt_of_lt_of_le hr hld) (Nat.lt_of_lt_of_le hr' hld) h
  · exact (hapart (Nat.lt_of_lt_of_le hc hld) (Nat.lt_of_lt_of_le hc' hld) h).symm

/-- The element in the last row and column is stored last. -/
theorem extent_greatest (hrows : 0 < x.rows) (hcols : 0 < x.cols) :
    IsGreatest (x.positions x.exactIndex) (x.extent - 1) := by
  constructor
  · refine ⟨x.rows - 1, by omega, x.cols - 1, by omega, ?_⟩
    rw [exactIndex, extent, colsStored, rowsStored]
    cases x.trans.isTrans <;> simp only [Bool.false_eq_true, if_false, if_true] <;> omega
  · rintro _ ⟨r, hr, c, hc, rfl⟩
    exact Nat.le_sub_one_of_lt (exactIndex_lt_extent hr hc)

end

-- ---------------------------------------------------------------------------
-- Positions in 64 bits
-- ---------------------------------------------------------------------------

section

variable {m : Type → Type} [Monad m]

/-- `index` with its product and its sum. -/
def computeIndex (ar : Arithmetic m) (x : Matrix) (r c : Nat) : m Nat :=
  if x.trans.isTrans then do ar.add c (← ar.mul r x.ld) else do ar.add r (← ar.mul c x.ld)

/-- The extent with its difference, product and sum. -/
def computeExtent (ar : Arithmetic m) (x : Matrix) : m Nat := do
  ar.add (← ar.mul (← ar.sub x.colsStored 1) x.ld) x.rowsStored

variable {x : Matrix} {r c : Nat}

theorem computeIndex_wrapping : computeIndex Arithmetic.wrapping x r c = x.index r c := by
  rw [computeIndex, index]
  split <;> exact Nat.add_mod_mod _ _ _

/-- An extent that is no word is noticed in its product or in its sum. -/
theorem computeExtent_checked (h : 0 < x.colsStored) : computeExtent Arithmetic.checked x =
    if x.extent < Size.modulus then some x.extent else none := by
  have hsub : Arithmetic.checked.sub x.colsStored 1 = some (x.colsStored - 1) := if_pos h
  rw [computeExtent, hsub, extent]
  by_cases hprod : (x.colsStored - 1) * x.ld < Size.modulus
  · have hmul : Arithmetic.checked.mul (x.colsStored - 1) x.ld = some _ := if_pos hprod
    simp only [Option.bind_eq_bind, Option.bind_some, hmul]
    rfl
  · have hmul : Arithmetic.checked.mul (x.colsStored - 1) x.ld = none := if_neg hprod
    simp only [Option.bind_eq_bind, Option.bind_some, Option.bind_none, hmul]
    rw [if_neg (by omega)]

/-- The length that an operand with elements needs is its extent, as far as that can be computed. -/
theorem requiredLen_checked (hrows : 0 < x.rows) (hcols : 0 < x.cols) :
    x.requiredLen = (computeExtent Arithmetic.checked x).getD Size.limit := by
  rw [computeExtent_checked (colsStored_pos hrows hcols), requiredLen, if_neg (by omega), ← extent,
    Size.cap, Size.limit]
  split <;> simp only [Option.getD_some, Option.getD_none] <;> omega

variable [LawfulMonad m] {ar : Arithmetic m}

theorem computeIndex_exact (har : ar.Exact) (h : x.exactIndex r c < Size.modulus) :
    computeIndex ar x r c = pure (x.exactIndex r c) := by
  rw [exactIndex] at h ⊢
  rw [computeIndex]
  split at h
  · rename_i htrans
    rw [if_pos htrans, if_pos htrans, har.mul (by omega), pure_bind, har.add h]
  · rename_i htrans
    rw [if_neg htrans, if_neg htrans, har.mul (by omega), pure_bind, har.add h]

end

-- ---------------------------------------------------------------------------
-- Operands that fit
-- ---------------------------------------------------------------------------

/-- Whether every element has an index of its own, from the first place of a buffer of the required
length to the last. -/
structure Indexed (x : Matrix) : Prop where
  apart : ∀ r < x.rows, ∀ c < x.cols, ∀ r' < x.rows, ∀ c' < x.cols,
    x.index r c = x.index r' c' → r = r' ∧ c = c'
  /-- Neither the index of an element nor the required length is cut. -/
  unwrapped : ∀ r < x.rows, ∀ c < x.cols,
    computeIndex Arithmetic.checked x r c = some (x.index r c)
  length : computeExtent Arithmetic.checked x = some x.requiredLen
  last : ∃ top, IsGreatest (x.positions x.index) top ∧ top + 1 = x.requiredLen

/-- An operand with elements and a sound leading dimension is indexed one to one and up to the end
of its required length, if its extent is a word. If it is not, the required length is the largest
word. -/
theorem indices_exact {x : Matrix} (hld : x.ldValid = true) (hrows : 0 < x.rows)
    (hcols : 0 < x.cols) :
    IsGreatest (x.positions x.exactIndex) (x.extent - 1) ∧
      (x.extent ≤ Size.limit → x.Indexed) ∧
      (Size.limit < x.extent →
        computeExtent Arithmetic.checked x = none ∧ x.requiredLen = Size.limit) := by
  have hgreatest := extent_greatest hrows hcols
  have hextent := computeExtent_checked (x := x) (colsStored_pos hrows hcols)
  refine ⟨hgreatest, fun hfits => ?_, fun hpast => ?_⟩
  · have hword : x.extent < Size.modulus := Nat.lt_of_le_of_lt hfits (by decide)
    have hindex : ∀ r < x.rows, ∀ c < x.cols, x.index r c = x.exactIndex r c :=
      fun r hr c hc => by
        rw [← computeIndex_wrapping]
        exact computeIndex_exact Arithmetic.wrapping_exact
          (Nat.lt_trans (exactIndex_lt_extent hr hc) hword)
    rw [if_pos hword] at hextent
    have hlength : x.requiredLen = x.extent := by
      rw [requiredLen_checked hrows hcols, hextent, Option.getD_some]
    exact {
      apart := fun r hr c hc r' hr' c' hc' h => by
        rw [hindex r hr c hc, hindex r' hr' c' hc'] at h
        exact exactIndex_inj (rowsStored_le_ld hld) hr hc hr' hc' h
      unwrapped := fun r hr c hc => by
        rw [hindex r hr c hc]
        exact computeIndex_exact Arithmetic.checked_exact
          (Nat.lt_trans (exactIndex_lt_extent hr hc) hword)
      length := by rw [hextent, hlength]
      last := by
        refine ⟨x.extent - 1, ?_, ?_⟩
        · rwa [positions_congr hindex]
        · have hpos := exactIndex_lt_extent hrows hcols
          rw [hlength]
          omega }
  · have hnot : ¬ x.extent < Size.modulus := by
      rw [Size.limit] at hpast
      omega
    rw [if_neg hnot] at hextent
    rw [requiredLen_checked hrows hcols, hextent]
    exact ⟨rfl, rfl⟩

/-- Two rows of three, stored as two columns of three with two places to spare after each, and three
columns half the address space apart. -/
theorem paddedTranspose_indexed :
    (⟨.trans, 2, 3, 5, .f32⟩ : Matrix).Indexed ∧
      (⟨.trans, 2, 3, 5, .f32⟩ : Matrix).requiredLen = 8 ∧
      (⟨.noTrans, 2, 3, 2 ^ 63, .s8⟩ : Matrix).requiredLen = Size.limit := by
  obtain ⟨-, hindexed, -⟩ :=
    indices_exact (x := ⟨.trans, 2, 3, 5, .f32⟩) (by decide) (by decide) (by decide)
  obtain ⟨-, -, hpast⟩ :=
    indices_exact (x := ⟨.noTrans, 2, 3, 2 ^ 63, .s8⟩) (by decide) (by decide) (by decide)
  exact ⟨hindexed (by decide), by decide, (hpast (by decide)).2⟩

end JitGemm.Matrix
