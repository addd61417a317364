import Mathlib.Algebra.Order.Floor.Div
import JitGemm.Size

/-!
# Arithmetic of sizes

A computation on sizes is written once, over any way to take sums, differences and products. What
runs cuts them to 64 bits. A checked computation stops at the first one that is no word, so where it
comes to an answer nothing has wrapped on the way.
-/

namespace JitGemm.Size

-- ---------------------------------------------------------------------------
-- Quotients rounded up
-- ---------------------------------------------------------------------------

theorem lt_ceilDiv {p n d : Nat} (hd : 0 < d) : p < Size.ceilDiv n d ↔ p * d < n := by
  have hn := Nat.div_add_mod n d
  have hr := Nat.mod_lt n hd
  have hdiv : p * d < n / d * d ↔ p < n / d := Nat.mul_lt_mul_right hd
  have hsame : p = n / d → p * d = n / d * d := fun h => h ▸ rfl
  have hmore : n / d < p → n / d * d + d ≤ p * d := fun h => by
    rw [← Nat.succ_mul]
    exact Nat.mul_le_mul_right d h
  rw [Nat.mul_comm] at hn
  rw [Size.ceilDiv]
  split <;> omega

theorem ceilDiv_le_ceilDiv {n d k e : Nat} (hd : 0 < d) (he : 0 < e)
    (h : ∀ p, p * d < n → p * e < k) : ceilDiv n d ≤ ceilDiv k e :=
  le_of_forall_lt fun p hp => (lt_ceilDiv he).mpr (h p ((lt_ceilDiv hd).mp hp))

theorem ceilDiv_le_self {n d : Nat} (hd : 0 < d) : ceilDiv n d ≤ n := by
  rw [← Nat.not_lt, lt_ceilDiv hd, Nat.not_lt]
  exact Nat.le_mul_of_pos_right n hd

theorem le_ceilDiv_mul {n d : Nat} (hd : 0 < d) : n ≤ ceilDiv n d * d :=
  Nat.not_lt.mp (mt (lt_ceilDiv hd).mpr (Nat.lt_irrefl _))

theorem ceilDiv_mul_lt {n d : Nat} (hd : 0 < d) : ceilDiv n d * d < n + d := by
  rcases Nat.eq_zero_or_pos (ceilDiv n d) with hzero | hpos
  · rw [hzero]
    omega
  · have hlast := (lt_ceilDiv hd).mp (Nat.sub_one_lt_of_lt hpos)
    rw [Nat.sub_one_mul] at hlast
    omega

theorem ceilDiv_succ {n d : Nat} (hd : 0 < d) (hn : 0 < n) :
    ceilDiv n d = ceilDiv (n - d) d + 1 := by
  refine eq_of_forall_lt_iff fun p => ?_
  rw [lt_ceilDiv hd]
  cases p with
  | zero => omega
  | succ p =>
    rw [Nat.add_lt_add_iff_right, lt_ceilDiv hd, Nat.succ_mul]
    omega

theorem ceilDiv_eq {n d : Nat} (hd : 0 < d) : ceilDiv n d = n ⌈/⌉ d := by
  refine eq_of_forall_ge_iff fun p => ?_
  rw [ceilDiv_le_iff_le_mul hd, ← Nat.not_lt, lt_ceilDiv hd, Nat.not_lt, Nat.mul_comm]

theorem ceilDiv_mul {n d : Nat} (hd : 0 < d) : ceilDiv (n * d) d = n := by
  rw [ceilDiv, Nat.mul_div_cancel n hd, Nat.mul_mod_left, if_pos rfl, Nat.add_zero]

-- ---------------------------------------------------------------------------
-- Ways to compute
-- ---------------------------------------------------------------------------

/-- A way to take sums, differences and products of sizes. -/
structure Arithmetic (m : Type → Type) where
  add : Nat → Nat → m Nat
  sub : Nat → Nat → m Nat
  mul : Nat → Nat → m Nat

namespace Arithmetic

/-- Everything is cut to 64 bits. -/
def wrapping : Arithmetic Id where
  add a b := wrap (a + b)
  sub a b := wrap (a + (modulus - b))
  mul a b := wrap (a * b)

def checked : Arithmetic Option where
  add a b := if a + b < modulus then some (a + b) else none
  sub a b := if b ≤ a then some (a - b) else none
  mul a b := if a * b < modulus then some (a * b) else none

section

variable {m : Type → Type} [Monad m] (ar : Arithmetic m)

def ceilDiv (n d : Nat) : m Nat :=
  if n % d = 0 then pure (n / d) else ar.add (n / d) 1

/-- Right wherever the result is a word. -/
structure Exact : Prop where
  add : ∀ {a b}, a + b < modulus → ar.add a b = pure (a + b)
  sub : ∀ {a b}, b ≤ a → a < modulus → ar.sub a b = pure (a - b)
  mul : ∀ {a b}, a * b < modulus → ar.mul a b = pure (a * b)

variable {ar}

theorem Exact.ceilDiv (har : ar.Exact) {n d : Nat} (h : Size.ceilDiv n d < modulus) :
    ar.ceilDiv n d = pure (Size.ceilDiv n d) := by
  rw [Size.ceilDiv] at h ⊢
  rw [Arithmetic.ceilDiv]
  by_cases hrest : n % d = 0
  · rw [if_pos hrest, if_pos hrest, Nat.add_zero]
  · rw [if_neg hrest] at h ⊢
    rw [if_neg hrest, har.add h]

end

theorem checked_exact : checked.Exact where
  add h := if_pos h
  sub h _ := if_pos h
  mul h := if_pos h

theorem wrapping_exact : wrapping.Exact where
  add h := wrap_of_lt h
  sub {a b} h ha := by
    show wrap (a + (modulus - b)) = a - b
    rw [show a + (modulus - b) = a - b + modulus by omega, wrap, Nat.add_mod_right]
    exact wrap_of_lt (by omega)
  mul h := wrap_of_lt h

end Arithmetic

end JitGemm.Size
