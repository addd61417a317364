import JitGemm.Gemm.Run
import JitGemm.Proofs.Size.Arithmetic

/-!
# What an accepted call guarantees

Validation bounds every buffer through the last stored element of its operand. On a machine with
64-bit sizes this makes every element of an operand an index that neither wraps nor leaves the
buffer.
-/

namespace JitGemm

-- ---------------------------------------------------------------------------
-- Operands
-- ---------------------------------------------------------------------------

namespace Matrix

/-- Position of an element, before anything is cut to 64 bits. -/
def exactIndex (x : Matrix) (r c : Nat) : Nat :=
  if x.trans.isTrans then c + r * x.ld else r + c * x.ld

/-- Elements from the first to the last stored one, before anything is cut to 64 bits. -/
def extent (x : Matrix) : Nat := (x.colsStored - 1) * x.ld + x.rowsStored

theorem exactIndex_lt_extent {x : Matrix} {r c : Nat} (hr : r < x.rows) (hc : c < x.cols) :
    x.exactIndex r c < x.extent := by
  rw [exactIndex, extent, colsStored, rowsStored]
  cases htrans : x.trans.isTrans
  · have hm : c * x.ld ≤ (x.cols - 1) * x.ld := Nat.mul_le_mul_right _ (by omega)
    simp only [Bool.false_eq_true, if_false]
    omega
  · have hm : r * x.ld ≤ (x.rows - 1) * x.ld := Nat.mul_le_mul_right _ (by omega)
    simp only [if_true]
    omega

/-- Whether a buffer of `length` elements holds the whole operand, and the leading dimension keeps
its columns apart. -/
structure Covered (x : Matrix) (length : Nat) : Prop where
  rows : x.rowsStored ≤ x.ld
  extent : x.requiredLen ≤ length
  fits : length < Size.limit

theorem Covered.exactIndex_lt {x : Matrix} {length r c : Nat} (h : x.Covered length)
    (hr : r < x.rows) (hc : c < x.cols) : x.exactIndex r c < length := by
  have hreq := h.extent
  have hlim := h.fits
  have hlt := exactIndex_lt_extent hr hc
  rw [requiredLen, if_neg (by omega), ← Matrix.extent, Size.cap] at hreq
  omega

/-- A buffer that holds an operand has its elements, however they are spaced. -/
theorem Covered.count_le {x : Matrix} {length : Nat} (h : x.Covered length) :
    x.rows * x.cols ≤ length := by
  rcases Nat.eq_zero_or_pos x.rows with hrows | hrows
  · simp [hrows]
  rcases Nat.eq_zero_or_pos x.cols with hcols | hcols
  · simp [hcols]
  have hld := h.rows
  have hlast := h.exactIndex_lt (r := x.rows - 1) (c := x.cols - 1) (by omega) (by omega)
  rw [exactIndex] at hlast
  rw [rowsStored] at hld
  cases htrans : x.trans.isTrans
  · simp only [htrans, Bool.false_eq_true, if_false] at hlast hld
    have hcolumns : (x.cols - 1) * x.rows ≤ (x.cols - 1) * x.ld := Nat.mul_le_mul_left _ hld
    rw [Nat.sub_one_mul] at hcolumns
    rw [Nat.mul_comm]
    omega
  · simp only [htrans, if_true] at hlast hld
    have hcolumns : (x.rows - 1) * x.cols ≤ (x.rows - 1) * x.ld := Nat.mul_le_mul_left _ hld
    rw [Nat.sub_one_mul] at hcolumns
    omega

theorem index_eq_wrap (x : Matrix) (r c : Nat) : x.index r c = Size.wrap (x.exactIndex r c) := by
  rw [index, exactIndex]
  split <;> rfl

theorem index_eq_of_lt {x : Matrix} {r c : Nat} (h : x.exactIndex r c < Size.modulus) :
    x.index r c = x.exactIndex r c := by
  rw [index_eq_wrap, Size.wrap_of_lt h]

theorem Covered.index_eq {x : Matrix} {length r c : Nat} (h : x.Covered length)
    (hr : r < x.rows) (hc : c < x.cols) : x.index r c = x.exactIndex r c := by
  have hlt := h.exactIndex_lt hr hc
  have hlim := h.fits
  rw [Size.limit] at hlim
  exact index_eq_of_lt (by omega)

end Matrix

-- ---------------------------------------------------------------------------
-- Validation
-- ---------------------------------------------------------------------------

theorem bind_ok {ε α β : Type} {x : Except ε α} {f : α → Except ε β} {b : β} :
    x >>= f = .ok b ↔ ∃ a, x = .ok a ∧ f a = .ok b := by
  cases x <;> simp [bind, Except.bind]

namespace Outline

/-- What fits a machine with 64-bit sizes: extents are words, and no operand is larger than an
object can be. -/
structure Addressable (o : Outline) : Prop where
  m : o.shape.m < Size.modulus
  n : o.shape.n < Size.modulus
  k : o.shape.k < Size.modulus
  lda : o.shape.lda < Size.modulus
  ldb : o.shape.ldb < Size.modulus
  ldc : o.shape.ldc < Size.modulus
  bytesA : o.lenA * o.elemA.bytes ≤ Size.objectLimit
  bytesB : o.lenB * o.elemB.bytes ≤ Size.objectLimit
  bytesC : o.lenC * o.elemC.bytes ≤ Size.objectLimit

theorem checkLd_ok {argument : String} {x : Matrix} {u : Unit}
    (h : checkLd argument x = .ok u) : x.rowsStored ≤ x.ld ∧ 0 < x.ld := by
  rw [checkLd] at h
  split at h
  · rename_i hv
    simp only [Matrix.ldValid, decide_eq_true_eq] at hv
    omega
  · cases h

theorem checkLen_ok {operand : String} {x : Matrix} {length : Nat} {u : Unit}
    (h : checkLen operand x length = .ok u) : x.requiredLen ≤ length := by
  rw [checkLen] at h
  split at h
  · assumption
  · cases h

theorem checkBias_ok {o : Outline} {u : Unit} (h : o.checkBias = .ok u) :
    ∀ length, o.lenBias = some length → o.shape.m ≤ length ∧ o.betaZero = true := by
  intro length hl
  simp only [checkBias, hl] at h
  split at h
  · cases h
  · split at h
    · rename_i hlen hbeta
      exact ⟨by omega, hbeta⟩
    · cases h

end Outline

theorem ElemType.le_mul_bytes (e : ElemType) (n : Nat) : n ≤ n * e.bytes := by
  cases e <;> simp [ElemType.bytes] <;> omega

/-- What the routes of a call rely on. -/
structure Outline.Accepted (o : Outline) : Prop where
  a : (o.shape.a o.elemA).Covered o.lenA
  b : (o.shape.b o.elemB).Covered o.lenB
  c : (o.shape.c o.elemC).Covered o.lenC
  ldcPos : 0 < o.shape.ldc
  bias : ∀ length, o.lenBias = some length → o.shape.m ≤ length ∧ o.betaZero = true
  fits : o.Addressable

theorem Outline.Accepted.count_le {o : Outline} (h : o.Accepted) :
    o.shape.m * o.shape.k ≤ Size.objectLimit :=
  h.a.count_le.trans ((o.elemA.le_mul_bytes _).trans h.fits.bytesA)

theorem Outline.accepted_of_check {o : Outline} {u : Unit} (hfit : o.Addressable)
    (h : o.check = .ok u) : o.Accepted := by
  simp only [check, bind_ok] at h
  obtain ⟨_, ha, _, hb, _, hc, _, hla, _, hlb, _, hlc, hbias⟩ := h
  have limit (e : ElemType) (n : Nat) (hn : n * e.bytes ≤ Size.objectLimit) : n < Size.limit := by
    have := e.le_mul_bytes n
    simp only [Size.objectLimit, Size.limit, Size.modulus] at hn ⊢
    omega
  exact {
    a := ⟨(checkLd_ok ha).1, checkLen_ok hla, limit _ _ hfit.bytesA⟩
    b := ⟨(checkLd_ok hb).1, checkLen_ok hlb, limit _ _ hfit.bytesB⟩
    c := ⟨(checkLd_ok hc).1, checkLen_ok hlc, limit _ _ hfit.bytesC⟩
    ldcPos := (checkLd_ok hc).2
    bias := checkBias_ok hbias
    fits := hfit }

theorem Outline.checkOffset_ok {o : Outline} {u : Unit} (h : o.checkOffset = .ok u) :
    ∃ mode length, o.offset = some (mode, length) ∧
      mode.requiredLen o.shape.m o.shape.n ≤ length := by
  rw [checkOffset] at h
  split at h
  · cases h
  · rename_i mode length ho
    simp only at h
    split at h
    · cases h
    · exact ⟨mode, length, ho, by omega⟩

theorem Outline.accepted_of_checkQuantized {o : Outline} {u : Unit} (hfit : o.Addressable)
    (h : o.checkQuantized = .ok u) :
    o.Accepted ∧ ∃ mode length, o.offset = some (mode, length) ∧
      mode.requiredLen o.shape.m o.shape.n ≤ length := by
  simp only [checkQuantized, bind_ok] at h
  obtain ⟨_, hoffset, hcheck⟩ := h
  exact ⟨accepted_of_check hfit hcheck, checkOffset_ok hoffset⟩

end JitGemm
