import Mathlib.Algebra.Order.BigOperators.GroupWithZero.List
import Mathlib.Algebra.Order.Ring.Nat
import JitGemm.Proofs.Size.Arithmetic
import JitGemm.Proofs.Work.Counting

/-!
# Odometers go round

An odometer counts in mixed radix: however far it goes, and however often round its box, it is where
one stands that starts at the number it has come to. Its linear position is that number less the
whole rounds, and is found without a wrap.
-/

namespace JitGemm.Work.Odometer

open Size (Arithmetic)

-- ---------------------------------------------------------------------------
-- Steps
-- ---------------------------------------------------------------------------

def after (o : Odometer) : Nat → Odometer
  | 0 => o
  | k + 1 => (o.after k).advance.1

theorem after_start {dims : List Nat} (h : ∀ d ∈ dims, 0 < d) (n k : Nat) :
    (start dims n).after k = start dims (n + k) := by
  induction k with
  | zero => rfl
  | succ k ih => rw [after, ih, advance_start h, Nat.add_assoc]

theorem start?_eq {dims : List Nat} (h : ∀ d ∈ dims, 0 < d) (n : Nat) :
    start? dims n = some (start dims n) := by
  rw [start?, if_pos (by simpa using h)]

theorem digits_below {dims : List Nat} (h : ∀ d ∈ dims, 0 < d) (n : Nat) :
    List.Forall₂ (· < ·) (digits dims n).1 dims := by
  induction dims with
  | nil => exact .nil
  | cons d ds ih =>
    rw [fst_digits_cons]
    exact .cons (Nat.mod_lt _ (h d List.mem_cons_self))
      (ih fun e he => h e (List.mem_cons_of_mem _ he))

-- ---------------------------------------------------------------------------
-- Linear positions
-- ---------------------------------------------------------------------------

section

variable {m : Type → Type} [Monad m]

/-- One more digit behind those counted so far. -/
def appendDigit (ar : Arithmetic m) (counted : Nat) (digit : Nat × Nat) : m Nat := do
  ar.add (← ar.mul counted digit.2) digit.1

/-- `linear` with all that it adds and multiplies. -/
def computeLinear (ar : Arithmetic m) (o : Odometer) : m Nat :=
  (o.coords.zip o.dims).foldlM (appendDigit ar) 0

theorem appendDigit_wrapping (counted : Nat) (digit : Nat × Nat) :
    appendDigit Arithmetic.wrapping counted digit = Size.wrap (counted * digit.2 + digit.1) :=
  Nat.mod_add_mod _ _ _

theorem computeLinear_wrapping (o : Odometer) :
    computeLinear Arithmetic.wrapping o = o.linear := by
  have hfold (l : List (Nat × Nat)) (counted : Nat) :
      l.foldlM (appendDigit Arithmetic.wrapping) counted =
        l.foldl (fun acc digit => Size.wrap (acc * digit.2 + digit.1)) counted := by
    induction l generalizing counted with
    | nil => rfl
    | cons digit l ih =>
      rw [List.foldlM_cons, appendDigit_wrapping, List.foldl_cons, ← ih]
      rfl
  exact hfold _ 0

variable [LawfulMonad m] {ar : Arithmetic m}

theorem appendDigit_exact (har : ar.Exact) {counted c d : Nat}
    (h : counted * d + c < Size.modulus) :
    appendDigit ar counted (c, d) = pure (counted * d + c) := by
  rw [appendDigit, har.mul (Nat.lt_of_add_right_lt h), pure_bind, har.add h]

/-- What is counted so far never exceeds what all digits come to, so that is the only bound. -/
theorem foldlM_digits (har : ar.Exact) {dims : List Nat} (h : ∀ d ∈ dims, 0 < d) (n counted : Nat)
    (hword : counted * dims.prod + n % dims.prod < Size.modulus) :
    ((digits dims n).1.zip dims).foldlM (appendDigit ar) counted =
      pure (counted * dims.prod + n % dims.prod) := by
  induction dims generalizing counted with
  | nil => simp [digits, Nat.mod_one]
  | cons d ds ih =>
    have hds : ∀ e ∈ ds, 0 < e := fun e he => h e (List.mem_cons_of_mem _ he)
    have hsplit : counted * (d * ds.prod) + n % (d * ds.prod) =
        (counted * d + n / ds.prod % d) * ds.prod + n % ds.prod := by
      rw [Nat.mul_comm d, Nat.mod_mul, Nat.add_mul, Nat.mul_comm ds.prod d, Nat.mul_assoc,
        Nat.mul_comm ds.prod (n / ds.prod % d)]
      omega
    rw [List.prod_cons, hsplit] at hword ⊢
    have hle := Nat.le_mul_of_pos_right (counted * d + n / ds.prod % d) (List.prod_pos hds)
    rw [fst_digits_cons, List.zip_cons_cons, List.foldlM_cons, appendDigit_exact har (by omega),
      pure_bind]
    exact ih hds _ hword

theorem computeLinear_start (har : ar.Exact) {dims : List Nat} (h : ∀ d ∈ dims, 0 < d) {n : Nat}
    (hn : n < Size.modulus) : computeLinear ar (start dims n) = pure (n % dims.prod) := by
  have hle := Nat.mod_le n dims.prod
  have hcount := foldlM_digits har h n 0 (by omega)
  rwa [Nat.zero_mul, Nat.zero_add] at hcount

end

theorem linear_start {dims : List Nat} (h : ∀ d ∈ dims, 0 < d) {n : Nat} (hn : n < Size.modulus) :
    (start dims n).linear = n % dims.prod := by
  rw [← computeLinear_wrapping]
  exact computeLinear_start Arithmetic.wrapping_exact h hn

-- ---------------------------------------------------------------------------
-- Counting
-- ---------------------------------------------------------------------------

/-- Whether `o` is an odometer of `dims` at position `n`, wherever it came from. -/
structure StandsAt (o : Odometer) (dims : List Nat) (n : Nat) : Prop where
  fresh : start? dims n = some o
  below : List.Forall₂ (· < ·) o.coords dims
  linear : o.linear = n % dims.prod
  unwrapped : computeLinear Arithmetic.checked o = some o.linear

theorem standsAt_start {dims : List Nat} (h : ∀ d ∈ dims, 0 < d) {n : Nat}
    (hn : n < Size.modulus) : (start dims n).StandsAt dims n where
  fresh := start?_eq h n
  below := digits_below h n
  linear := linear_start h hn
  unwrapped := by
    rw [linear_start h hn]
    exact computeLinear_start Arithmetic.checked_exact h hn

/-- An odometer of positive extents that steps on from `n` stands at `n + k` after `k` steps, as
long as that is a word, and each step ends a round exactly where it comes to a multiple of the box.
The box may be larger than a word. -/
theorem odometer_counts {dims : List Nat} (hpos : ∀ d ∈ dims, 0 < d) {n k : Nat}
    (hword : n + k < Size.modulus) :
    ∃ o, start? dims n = some o ∧ (o.after k).StandsAt dims (n + k) ∧
      ∀ j < k, ((o.after j).advance.2 = false ↔ dims.prod ∣ n + (j + 1)) := by
  refine ⟨start dims n, start?_eq hpos n, ?_, fun j _ => ?_⟩
  · rw [after_start hpos]
    exact standsAt_start hpos hword
  · rw [after_start hpos, advance_start hpos]
    simp [Nat.add_assoc]

/-- Two steps to the last word, in a box that no word counts. -/
theorem wideBox_counted :
    (start [2 ^ 40, 2 ^ 40] (2 ^ 64 - 3)).after 2 = ⟨[2 ^ 40, 2 ^ 40], [2 ^ 24 - 1, 2 ^ 40 - 1]⟩ ∧
      ((start [2 ^ 40, 2 ^ 40] (2 ^ 64 - 3)).after 2).StandsAt [2 ^ 40, 2 ^ 40] (2 ^ 64 - 1) := by
  obtain ⟨o, ho, hlast, -⟩ :=
    odometer_counts (n := 2 ^ 64 - 3) (k := 2)
      (show ∀ d ∈ [2 ^ 40, 2 ^ 40], 0 < d by decide) (by decide)
  obtain rfl : start [2 ^ 40, 2 ^ 40] (2 ^ 64 - 3) = o :=
    Option.some.inj ((start?_eq (by decide) _).symm.trans ho)
  exact ⟨by decide, hlast⟩

end JitGemm.Work.Odometer
