import JitGemm.Proofs.Work.Partition

/-!
# Teams do a box once

However a team comes to a box, by a loop of its own or by one inside a body that it runs already,
every coordinate is visited once, by the member whose share it is in. The caller goes on with the
seat that it had.
-/

namespace JitGemm.Work

-- ---------------------------------------------------------------------------
-- Bodies
-- ---------------------------------------------------------------------------

/-- What a team makes of a box: every member's visits, filed under the member. -/
def Team.shared (t : Team) (dims : List Nat) : List Visit :=
  t.seats.flatMap fun seat => (visits seat dims).map fun c => ⟨c, seat.worker, seat.team⟩

theorem flatMap_range_own {β : Type} {n i : Nat} (hi : i < n) (f : Nat → List β) :
    ((List.range n).flatMap fun j => if j = i then f j else []) = f i := by
  obtain ⟨k, rfl⟩ := Nat.exists_eq_add_of_le hi
  have hbefore : (List.range i).flatMap (fun j => if j = i then f j else []) = [] := by
    simp only [List.flatMap_eq_nil_iff, List.mem_range]
    intro j hj
    rw [if_neg (by omega)]
  have hafter : (List.range k).flatMap (fun j => if i + 1 + j = i then f (i + 1 + j) else []) =
      [] := by
    simp only [List.flatMap_eq_nil_iff]
    intro j _
    rw [if_neg (by omega)]
  rw [Nat.succ_eq_add_one, List.range_add, List.range_succ]
  simp [List.flatMap_map, hbefore, hafter]

namespace Team

/-- A body runs once per seat, on a thread that holds the seat, and the caller is left as it was. -/
theorem parallel_eq {α : Type} (t : Team) (caller : Thread) (body : Seat → Thread → α × Thread) :
    t.parallel caller body = (t.seats.map fun seat => (body seat ⟨some seat⟩).1, caller) := by
  rw [parallel]
  by_cases hone : t.size = 1
  · have hseats : t.seats = [⟨0, 1⟩] := by simp [seats, hone]
    rw [if_pos hone, hseats]
    rfl
  · rw [if_neg hone]
    rfl

theorem nestedVisits_eq (t : Team) (caller : Thread) (dims : List Nat) :
    t.nestedVisits caller dims = (t.shared dims, caller) := by
  rw [nestedVisits, parallel_eq]
  rfl

/-- A box without coordinates is not forked for, and would not be visited either. -/
theorem forkVisits_eq (t : Team) (caller : Thread) (dims : List Nat) :
    t.forkVisits caller dims = (t.shared dims, caller) := by
  rw [forkVisits]
  split
  · rename_i hany
    have hzero : 0 ∈ dims := by simpa using hany
    have hempty (seat : Seat) : visits seat dims = [] := by
      rw [visits, boxSize_eq, List.prod_eq_zero_iff.mpr hzero]
      rfl
    simp [shared, hempty]
  · rw [parallel_eq]
    rfl

theorem coords_shared (t : Team) (dims : List Nat) :
    (t.shared dims).map Visit.coords = t.seats.flatMap fun seat => visits seat dims := by
  simp [shared, List.map_flatMap, Function.comp_def]

/-- Only the member itself files under its number. -/
theorem filed_shared (t : Team) (dims : List Nat) :
    t.filed (t.shared dims) = t.seats.map fun seat => visits seat dims := by
  rw [filed, seats, List.map_map]
  refine List.map_congr_left fun i hi => ?_
  have hmember (j : Nat) : (((visits ⟨j, t.size⟩ dims).map fun c => (⟨c, j, t.size⟩ : Visit)).filter
      (·.number == i)).map Visit.coords = if j = i then visits ⟨j, t.size⟩ dims else [] := by
    by_cases hj : j = i <;> simp [hj, List.filter_map, Function.comp_def]
  rw [shared, seats, List.flatMap_map, List.filter_flatMap, List.map_flatMap]
  simp only [hmember]
  exact flatMap_range_own (List.mem_range.mp hi) fun j => visits ⟨j, t.size⟩ dims

end Team

-- ---------------------------------------------------------------------------
-- Boxes
-- ---------------------------------------------------------------------------

/-- What is asked of the way in which a team does a box. -/
structure Team.DoesOnce (t : Team) (dims : List Nat) : Prop where
  /-- The shares of the members, one after the other, are all coordinates of the box. -/
  shares : t.seats.flatMap (fun seat => visits seat dims) = coordinates dims
  /-- Both kinds of loop visit these, file each under the member that has it, and leave the caller
  the seat that it had. -/
  forked : ∀ caller, t.forkVisits caller dims = (t.shared dims, caller)
  nested : ∀ caller, t.nestedVisits caller dims = (t.shared dims, caller)
  coords : (t.shared dims).map Visit.coords = coordinates dims
  filed : t.filed (t.shared dims) = t.seats.map fun seat => visits seat dims

/-- The coordinates of a box are those below its extents, in row-major order, so each is there once.
A team of any size does them once, and a thread without a seat does all of them by itself, as number
0 of 1. Whatever body a team runs, its caller has its seat back afterwards. -/
theorem boxes_done_once (dims : List Nat) (h : dims.prod < Size.modulus) :
    (coordinates dims).Pairwise (· < ·) ∧
      (∀ cs, cs ∈ coordinates dims ↔ List.Forall₂ (· < ·) cs dims) ∧
      (0 ∈ dims → coordinates dims = []) ∧
      (∀ t : Team, t.DoesOnce dims) ∧
      (∀ thread : Thread, thread.seat = none →
        thread.visit dims = (coordinates dims).map fun c => ⟨c, 0, 1⟩) ∧
      ∀ {α : Type} (t : Team) (caller : Thread) (body : Seat → Thread → α × Thread),
        (t.parallel caller body).2 = caller := by
  refine ⟨coordinates_sorted dims, fun _ => mem_coordinates, coordinates_eq_nil, fun t => ?_, ?_,
    fun t caller body => by rw [t.parallel_eq]⟩
  · exact {
      shares := t.flatMap_visits h
      forked := fun caller => t.forkVisits_eq caller dims
      nested := fun caller => t.nestedVisits_eq caller dims
      coords := (t.coords_shared dims).trans (t.flatMap_visits h)
      filed := t.filed_shared dims }
  · rintro ⟨seat⟩ rfl
    have hserial := Team.serial.flatMap_visits h
    rw [show Team.serial.seats = [⟨0, 1⟩] from rfl, List.flatMap_singleton] at hserial
    rw [← hserial]
    rfl

/-- Six items on four workers, from inside a larger team. -/
theorem uneven_box_done :
    let t : Team := { size := 4 }
    let caller : Thread := ⟨some ⟨2, 7⟩⟩
    t.filed (t.forkVisits caller [2, 3]).1 =
        [[[0, 0], [0, 1]], [[0, 2], [1, 0]], [[1, 1]], [[1, 2]]] ∧
      (t.nestedVisits caller [2, 3]).2 = caller := by
  intro t caller
  obtain ⟨-, -, -, hteam, -, -⟩ := boxes_done_once [2, 3] (by decide)
  rw [(hteam t).forked, (hteam t).nested, (hteam t).filed]
  exact ⟨by decide, rfl⟩

end JitGemm.Work
