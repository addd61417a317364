import JitGemm.Proofs.Work.Counting

/-!
# Teams share all their work

The shares of a team are consecutive and end at the total, so a team of any size comes to the
items `0, …, n-1` in this order, each once.
-/

namespace JitGemm.Work

-- ---------------------------------------------------------------------------
-- Shares
-- ---------------------------------------------------------------------------

namespace Share

/-- Where the share of `worker` starts: a quotient for every worker before it, and one more for
each of them that holds a larger share. -/
def bound (total workers worker : Nat) : Nat :=
  worker * (total / workers) + min worker (total % workers)

theorem bound_zero (total workers : Nat) : bound total workers 0 = 0 := by
  simp [bound]

theorem bound_all {total workers : Nat} (h : 0 < workers) :
    bound total workers workers = total := by
  rw [bound, Nat.min_eq_right (Nat.le_of_lt (Nat.mod_lt total h)), Nat.div_add_mod]

theorem bound_succ (total workers worker : Nat) :
    bound total workers (worker + 1) =
      bound total workers worker + total / workers +
        if worker < total % workers then 1 else 0 := by
  rw [bound, bound, Nat.succ_mul]
  split <;> omega

theorem bound_mono (total workers : Nat) {v w : Nat} (h : v ≤ w) :
    bound total workers v ≤ bound total workers w := by
  have hm : v * (total / workers) ≤ w * (total / workers) := Nat.mul_le_mul_right _ h
  rw [bound, bound]
  omega

theorem bound_le {total workers worker : Nat} (h : worker ≤ workers) (hw : 0 < workers) :
    bound total workers worker ≤ total :=
  Nat.le_trans (bound_mono _ _ h) (Nat.le_of_eq (bound_all hw))

/-- Start and size of a share, before anything is cut to 64 bits. -/
theorem start_count_eq {total workers worker : Nat} (hw : worker < workers) (ht : 0 < total) :
    let large := Size.ceilDiv total workers
    let numLarge := total - (large - 1) * workers
    (if worker < numLarge then worker * large
      else numLarge * large + (worker - numLarge) * (large - 1)) = bound total workers worker ∧
    (if worker < numLarge then large else large - 1) =
      total / workers + if worker < total % workers then 1 else 0 := by
  have hpos : 0 < workers := by omega
  have hr := Nat.mod_lt total hpos
  have hd : workers * (total / workers) + total % workers = total := Nat.div_add_mod total workers
  simp only [Size.ceilDiv, bound]
  obtain ⟨q, hq⟩ : ∃ q, total / workers = q := ⟨_, rfl⟩
  obtain ⟨r, hr'⟩ : ∃ r, total % workers = r := ⟨_, rfl⟩
  simp only [hq, hr'] at hr hd ⊢
  rcases Nat.eq_zero_or_pos r with rfl | hr0
  · -- without a remainder every share is a large one
    obtain ⟨q, rfl⟩ : ∃ p, q = p + 1 := Nat.exists_eq_succ_of_ne_zero (by rintro rfl; omega)
    have hnum : total - q * workers = workers := by
      rw [Nat.mul_succ, Nat.mul_comm] at hd
      omega
    simp [hnum, hw]
  · have hnum : total - q * workers = r := by
      rw [Nat.mul_comm] at hd
      omega
    simp only [hnum, Nat.ne_of_gt hr0, if_false, Nat.add_sub_cancel]
    by_cases hlt : worker < r
    · simp only [if_pos hlt, Nat.min_eq_left (Nat.le_of_lt hlt), Nat.mul_succ, and_self]
    · obtain ⟨d, rfl⟩ := Nat.exists_eq_add_of_le (Nat.le_of_not_lt hlt)
      simp only [if_neg hlt, Nat.min_eq_right (Nat.le_add_right r d), Nat.add_sub_cancel_left,
        Nat.mul_succ, Nat.add_mul, Nat.add_zero, and_true]
      omega

/-- A worker of the team holds the units between its bound and the next one; nothing wraps. -/
theorem of_eq {total workers worker : Nat} (hw : worker < workers) (ht : total < Size.modulus) :
    Share.of total workers worker =
      ⟨bound total workers worker, bound total workers (worker + 1)⟩ := by
  have hpos : 0 < workers := by omega
  have hhi : bound total workers (worker + 1) ≤ total := bound_le hw hpos
  have hstep := bound_succ total workers worker
  by_cases hone : workers ≤ 1 ∨ total = 0
  · rw [Share.of, if_pos hone]
    rcases hone with hone | rfl
    · obtain rfl : workers = 1 := by omega
      obtain rfl : worker = 0 := by omega
      simp [bound, Nat.mod_one]
    · simp [bound]
  · obtain ⟨hstart, hcount⟩ := start_count_eq hw (by omega : 0 < total)
    have hwrap := Size.wrap_of_lt (n := bound total workers worker) (by omega)
    have hwrap' := Size.wrap_of_lt (n := bound total workers (worker + 1)) (by omega)
    rw [Nat.add_assoc, ← hcount] at hstep
    simp only [Share.of, if_neg hone]
    rw [← apply_ite Size.wrap, hstart, hwrap, ← hstep, hwrap', Nat.min_eq_left hhi]
    split
    · simp only [Share.mk.injEq]
      omega
    · rfl

def units (total workers worker : Nat) : List Nat :=
  List.range' (bound total workers worker)
    (bound total workers (worker + 1) - bound total workers worker)

theorem flatMap_units (total workers w : Nat) :
    (List.range w).flatMap (units total workers) = List.range (bound total workers w) := by
  induction w with
  | zero => simp [bound_zero]
  | succ w ih =>
    have hm := bound_mono total workers (Nat.le_succ w)
    obtain ⟨d, hd⟩ := Nat.exists_eq_add_of_le hm
    rw [List.range_succ, List.flatMap_append, ih]
    simp only [Nat.succ_eq_add_one] at hd
    simp [units, hd, List.range_add, List.range'_eq_map_range]

end Share

-- ---------------------------------------------------------------------------
-- Boxes
-- ---------------------------------------------------------------------------

theorem boxSize_eq (dims : List Nat) : boxSize dims = Size.wrap dims.prod := by
  have hfold (n : Nat) (hn : n < Size.modulus) :
      dims.foldl (fun acc d => Size.wrap (acc * d)) n = Size.wrap (n * dims.prod) := by
    induction dims generalizing n with
    | nil => simp [Size.wrap_of_lt hn]
    | cons d ds ih =>
      rw [List.foldl_cons, ih _ (Size.wrap_lt _), List.prod_cons, ← Nat.mul_assoc]
      exact Nat.mod_mul_mod _ _ _
  rw [boxSize, hfold 1 (by decide), Nat.one_mul]

/-- A member of a team visits the coordinates that the units of its share number. -/
theorem visits_eq {dims : List Nat} {team worker : Nat} (h : dims.prod < Size.modulus)
    (hw : worker < team) :
    visits ⟨worker, team⟩ dims =
      (Share.units dims.prod team worker).map fun n => (Odometer.digits dims n).1 := by
  simp only [visits, boxSize_eq, Size.wrap_of_lt h, Share.of_eq hw h, Share.size, Share.units]
  split
  · rename_i hempty
    have hnone : Share.bound dims.prod team (worker + 1) = 0 :=
      Nat.le_zero.mp (hempty ▸ Share.bound_le hw (by omega))
    simp [hnone]
  · rename_i hunits
    refine Odometer.walk_start (fun d hd => Nat.pos_of_ne_zero ?_) _ _
    rintro rfl
    exact hunits (List.prod_eq_zero_iff.mpr hd)

theorem Team.flatMap_visits (t : Team) {dims : List Nat} (h : dims.prod < Size.modulus) :
    t.seats.flatMap (fun seat => visits seat dims) = coordinates dims := by
  have hseat : ∀ i ∈ List.range t.size, visits ⟨i, t.size⟩ dims =
      (Share.units dims.prod t.size i).map fun n => (Odometer.digits dims n).1 :=
    fun i hi => visits_eq h (List.mem_range.mp hi)
  rw [seats, List.flatMap_map, List.flatMap_congr hseat, ← List.map_flatMap,
    Share.flatMap_units, Share.bound_all t.size_pos, Odometer.coordinates_eq]

theorem Team.items_eq (t : Team) {n : Nat} (hn : n < Size.modulus) :
    t.items n = List.range n := by
  have hline : coordinates [n] = (List.range n).map fun i => [i] := by
    simp [coordinates, List.map_eq_flatMap]
  rw [items, ← List.flatMap_def, ← List.map_flatMap, t.flatMap_visits (by simpa using hn), hline,
    List.map_map]
  exact List.map_id _

end JitGemm.Work
