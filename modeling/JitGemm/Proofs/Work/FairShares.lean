import JitGemm.Proofs.Size.Arithmetic
import JitGemm.Proofs.Work.Partition

/-!
# Shares are fair

The shares of a team follow one another from the first unit to the last, and no two differ by more
than one unit. Every total that is a 64-bit word is shared out without a wrap.
-/

namespace JitGemm.Work.Share

open Size (Arithmetic)

-- ---------------------------------------------------------------------------
-- Shares, operation by operation
-- ---------------------------------------------------------------------------

section

variable {m : Type → Type} [Monad m]

/-- The first unit of a worker, of whom the first `numLarge` have the larger shares. -/
def computeStart (ar : Arithmetic m) (large small numLarge worker : Nat) : m Nat :=
  if worker < numLarge then ar.mul worker large
  else do ar.add (← ar.mul numLarge large) (← ar.mul (← ar.sub worker numLarge) small)

def place (ar : Arithmetic m) (total large small numLarge worker : Nat) : m Share := do
  let start ← computeStart ar large small numLarge worker
  if total ≤ start then pure ⟨total, total⟩ else do
    let stop ← ar.add start (if worker < numLarge then large else small)
    pure ⟨start, min stop total⟩

/-- `Share.of` with all that it adds, subtracts and multiplies. -/
def compute (ar : Arithmetic m) (total workers worker : Nat) : m Share :=
  if workers ≤ 1 ∨ total = 0 then pure ⟨0, total⟩ else do
    let large ← ar.ceilDiv total workers
    let small ← ar.sub large 1
    let numLarge ← ar.sub total (← ar.mul small workers)
    place ar total large small numLarge worker

variable [LawfulMonad m] {ar : Arithmetic m} {total workers worker : Nat}

/-- The two sizes of shares, and how many are large, are words for every team. -/
theorem compute_sizes (har : ar.Exact) (ht : total < Size.modulus)
    (hmany : ¬ (workers ≤ 1 ∨ total = 0)) :
    let large := Size.ceilDiv total workers
    compute ar total workers worker =
      place ar total large (large - 1) (total - (large - 1) * workers) worker := by
  have hpos : 0 < workers := by omega
  have hlarge : 1 ≤ Size.ceilDiv total workers := (Size.lt_ceilDiv hpos).mpr (by omega)
  have hle : Size.ceilDiv total workers ≤ total := Size.ceilDiv_le_self hpos
  have hsmall : (Size.ceilDiv total workers - 1) * workers < total :=
    (Size.lt_ceilDiv hpos).mp (by omega)
  rw [compute, if_neg hmany, har.ceilDiv (by omega), pure_bind, har.sub hlarge (by omega),
    pure_bind, har.mul (by omega), pure_bind, har.sub (by omega) ht, pure_bind]

theorem computeStart_exact (har : ar.Exact) {large small numLarge : Nat}
    (hword : worker < Size.modulus)
    (h : (if worker < numLarge then worker * large
      else numLarge * large + (worker - numLarge) * small) < Size.modulus) :
    computeStart ar large small numLarge worker =
      pure (if worker < numLarge then worker * large
        else numLarge * large + (worker - numLarge) * small) := by
  rw [computeStart]
  split at h
  · rename_i hfirst
    rw [if_pos hfirst, if_pos hfirst, har.mul h]
  · rename_i hlater
    rw [if_neg hlater, if_neg hlater, har.mul (by omega), pure_bind, har.sub (by omega) hword,
      pure_bind, har.mul (by omega), pure_bind, har.add h]

/-- For a member of the team every step is a word: none is past the end of its share. -/
theorem compute_exact (har : ar.Exact) (hw : worker < workers) (ht : total < Size.modulus)
    (hword : worker < Size.modulus) :
    compute ar total workers worker = pure (of total workers worker) := by
  by_cases hmany : workers ≤ 1 ∨ total = 0
  · rw [compute, of, if_pos hmany, if_pos hmany]
  obtain ⟨hstart, hcount⟩ := start_count_eq hw (by omega : 0 < total)
  have hstep := bound_succ total workers worker
  have hstop : bound total workers (worker + 1) ≤ total := bound_le hw (by omega)
  rw [Nat.add_assoc, ← hcount] at hstep
  rw [compute_sizes har ht hmany, place,
    computeStart_exact har hword (by rw [hstart]; omega), hstart, pure_bind, of_eq hw ht]
  split
  · -- nothing is left for this member
    have hnone : bound total workers worker = total := by omega
    have hnone' : bound total workers (worker + 1) = total := by omega
    rw [hnone, hnone']
  · rw [har.add (by omega), pure_bind, ← hstep, Nat.min_eq_left hstop]

/-- Cut to 64 bits, the steps are those of `Share.of`, also for numbers past the team. -/
theorem compute_wrapping (ht : total < Size.modulus) (hword : worker < Size.modulus) :
    compute Arithmetic.wrapping total workers worker = of total workers worker := by
  by_cases hmany : workers ≤ 1 ∨ total = 0
  · rw [compute, of, if_pos hmany, if_pos hmany]
    rfl
  have hstart (large small numLarge : Nat) :
      computeStart Arithmetic.wrapping large small numLarge worker =
        if worker < numLarge then Size.wrap (worker * large)
        else Size.wrap (numLarge * large + (worker - numLarge) * small) := by
    rw [computeStart]
    split
    · rfl
    · rw [Arithmetic.wrapping_exact.sub (by omega) hword]
      exact (Nat.add_mod _ _ _).symm
  rw [compute_sizes Arithmetic.wrapping_exact ht hmany, place, hstart, of, if_neg hmany]
  rfl

end

-- ---------------------------------------------------------------------------
-- Fairness
-- ---------------------------------------------------------------------------

/-- A quotient has a remainder exactly where rounding it up makes a difference. -/
theorem ceilDiv_of_rest {total workers : Nat} (hpos : 0 < workers) (h : 0 < total % workers) :
    total ⌈/⌉ workers = total / workers + 1 := by
  rw [← Size.ceilDiv_eq hpos, Size.ceilDiv, if_neg (by omega)]

/-- What is asked of the shares of `total` units among `workers`. -/
structure Fair (total workers : Nat) : Prop where
  first : (of total workers 0).start = 0
  next : ∀ i, i + 1 < workers → (of total workers (i + 1)).start = (of total workers i).stop
  last : (of total workers (workers - 1)).stop = total
  /-- The remainder goes to the workers with the lowest numbers, one unit each. -/
  sizes : ∀ i < workers, (of total workers i).stop = (of total workers i).start +
    if i < total % workers then total ⌈/⌉ workers else total / workers
  /-- So the units of all workers, one worker after the other, are all units. -/
  units : (List.range workers).flatMap (fun i =>
    List.range' (of total workers i).start (of total workers i).size) = List.range total
  /-- Nothing on the way to a member's share is past a word. -/
  unwrapped : ∀ i < workers, compute Arithmetic.checked total workers i = some (of total workers i)
  wrapping : ∀ i < Size.modulus, compute Arithmetic.wrapping total workers i = of total workers i

theorem shares_fair {total workers : Nat} (ht : total < Size.modulus) (hpos : 0 < workers)
    (hword : workers < Size.modulus) : Fair total workers where
  first := by rw [of_eq hpos ht, bound_zero]
  next i hi := by rw [of_eq hi ht, of_eq (Nat.lt_of_succ_lt hi) ht]
  last := by
    rw [of_eq (Nat.sub_lt hpos Nat.one_pos) ht, Nat.sub_add_cancel hpos]
    exact bound_all hpos
  sizes i hi := by
    rw [of_eq hi ht, bound_succ, Nat.add_assoc]
    split
    · rw [ceilDiv_of_rest hpos (by omega)]
    · rfl
  units := by
    have hmember : ∀ i ∈ List.range workers,
        List.range' (of total workers i).start (of total workers i).size =
          units total workers i := fun i hi => by
      rw [of_eq (List.mem_range.mp hi) ht]
      rfl
    rw [List.flatMap_congr hmember, flatMap_units, bound_all hpos]
  unwrapped i hi := compute_exact Arithmetic.checked_exact hi ht (Nat.lt_trans hi hword)
  wrapping i hi := compute_wrapping ht hi

/-- The most units that a word can count, among ten. -/
theorem longest_line_shared :
    Fair Size.limit 10 ∧
      of Size.limit 10 4 = ⟨7378697629483820648, 9223372036854775810⟩ ∧
      of Size.limit 10 5 = ⟨9223372036854775810, 11068046444225730971⟩ :=
  ⟨shares_fair (by decide) (by decide) (by decide), by decide, by decide⟩

end JitGemm.Work.Share
