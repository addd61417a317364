import JitGemm.Gemm.Reference
import JitGemm.Proofs.Gemm.Block

/-!
# What the reference kernels compute

Each reference kernel ends well on a call that can be run, with every element of the block at the
value written out here and the rest of C untouched. The same holds for a bias added afterwards.
-/

namespace JitGemm

def Offset.at (offset : Option Offset) (i j : Nat) : Int32 :=
  offset.elim 0 fun o => o.values.getD (o.mode.position i j) 0

/-- Whether an offset has a value for every element of an `m x n` result. -/
def Offset.Reaches (offset : Option Offset) (m n : Nat) : Prop :=
  ∀ o, offset = some o → ∀ i < m, ∀ j < n, o.mode.position i j < o.values.size

namespace Reference

variable {α : Type} (ar : Arith α)

-- ---------------------------------------------------------------------------
-- Values
-- ---------------------------------------------------------------------------

def dotValue (a b : Operand α) (k i j : Nat) : α :=
  (List.range k).foldl (fun acc p =>
    ar.add acc (ar.mul (a.value ar.zero i p) (b.value ar.zero p j))) ar.zero

def floatValue (a b : Operand α) (k : Nat) (alpha beta : α) (bias : Option (Array α)) (i j : Nat)
    (old : α) : α :=
  let scaled := ar.mul alpha (dotValue ar a b k i j)
  let kept := if ar.isZero beta then scaled else ar.add scaled (ar.mul beta old)
  bias.elim kept fun xs => ar.add kept (xs.getD i ar.zero)

def intDotValue (a b : Operand Int32) (k i j : Nat) : Int32 :=
  (List.range k).foldl (fun acc p => acc + a.value 0 i p * b.value 0 p j) 0

def intValue (a b : Operand Int32) (k : Nat) (alpha beta : α) (offset : Option Offset) (i j : Nat)
    (old : Int32) : Int32 :=
  ar.quantize (intDotValue a b k i j) alpha beta old (Offset.at offset i j)

-- ---------------------------------------------------------------------------
-- Elements
-- ---------------------------------------------------------------------------

variable {s : GemmShape} {size i j : Nat}

theorem dot_eq {γ : Type} {a b : Operand α} (h : s.Ready a b size) (hi : i < s.m) (hj : j < s.n) :
    (dot ar a b s.k i j : Run γ α) = pure (dotValue ar a b s.k i j) := by
  refine Run.foldlM_eq_pure (fun acc p hp => ?_) _
  have hp := List.mem_range.mp hp
  rw [h.entryA ar.zero hi hp, h.entryB ar.zero hp hj]
  rfl

theorem intDot_eq {γ : Type} {a b : Operand Int32} (h : s.Ready a b size) (hi : i < s.m)
    (hj : j < s.n) : (intDot a b s.k i j : Run γ Int32) = pure (intDotValue a b s.k i j) := by
  refine Run.foldlM_eq_pure (fun acc p hp => ?_) _
  have hp := List.mem_range.mp hp
  rw [h.entryA 0 hi hp, h.entryB 0 hp hj]
  rfl

theorem offsetAt_eq {γ : Type} {offset : Option Offset} {m n : Nat}
    (h : Offset.Reaches offset m n) (hi : i < m) (hj : j < n) :
    (offsetAt offset i j : Run γ Int32) = pure (Offset.at offset i j) := by
  cases offset with
  | none => rfl
  | some o =>
    have hlt := h o rfl i hi j hj
    simp [offsetAt, Offset.at, Run.fetch_of_lt hlt, hlt]

theorem withBias_eq {bias : Option (Array α)} {m : Nat} (h : ∀ xs, bias = some xs → m ≤ xs.size)
    (hi : i < m) (v : α) :
    withBias ar bias v i =
      pure (bias.elim v fun xs => ar.add v (xs.getD i ar.zero)) := by
  cases bias with
  | none => rfl
  | some xs =>
    have hlt : i < xs.size := Nat.lt_of_lt_of_le hi (h xs rfl)
    simp [withBias, Run.fetch_of_lt hlt, hlt]

/-- The old value is read only where it counts. -/
theorem keepOld_bind {σ : Type} (beta v : α) {position : Nat} {old : α} (f : α → Run α σ)
    {xs : Array α} (h : xs[position]? = some old) :
    (keepOld ar beta v position >>= f).run xs =
      (f (if ar.isZero beta then v else ar.add v (ar.mul beta old))).run xs := by
  rw [keepOld]
  split
  · rw [pure_bind]
  · rw [bind_assoc, Run.run_bind_ok (Run.run_read h), pure_bind]

section

variable {c : Array α} {done done' : Nat → Nat → Bool}

theorem run_floatElement {a b : Operand α} {alpha beta : α} {bias : Option (Array α)}
    (h : s.Ready a b c.size) (hbias : ∀ xs, bias = some xs → s.m ≤ xs.size)
    (hi : i < s.m) (hj : j < s.n)
    (hnew : ∀ i' < s.m, ∀ j' < s.n, done' i' j' = (done i' j' || decide (i' = i ∧ j' = j)))
    (hold : done i j = false) :
    let f := floatValue ar a b s.k alpha beta bias
    (floatElement ar a b s.k alpha beta bias (Panel.nth s c.size 1 j) i j).run
      (s.overwrite f done c) = .ok () (s.overwrite f done' c) := by
  intro f
  obtain ⟨old, hc, hread⟩ := GemmShape.old_of_unvisited (f := f) h.holds hi hj hold
  have hlt : i + j * s.ldc < (s.overwrite f done c).size := by
    simpa using h.holds.inside i hi j hj
  rw [floatElement, dot_eq ar h hi hj, pure_bind, Panel.cell_column h.holds hi hj, pure_bind,
    keepOld_bind ar _ _ _ hread, withBias_eq ar hbias hi, pure_bind, Run.run_write hlt]
  exact congrArg _ (GemmShape.overwrite_visit h.holds.rows hi hj hnew hold hc)

end

theorem run_writeQuantized {c : Array Int32} {done done' : Nat → Nat → Bool} {alpha beta : α}
    {offset : Option Offset} {sum : Int32} {f : Nat → Nat → Int32 → Int32}
    (h : s.Holds c.size) (hoffset : Offset.Reaches offset s.m s.n) (hi : i < s.m) (hj : j < s.n)
    (hf : ∀ old, ar.quantize sum alpha beta old (Offset.at offset i j) = f i j old)
    (hnew : ∀ i' < s.m, ∀ j' < s.n, done' i' j' = (done i' j' || decide (i' = i ∧ j' = j)))
    (hold : done i j = false) :
    (writeQuantized ar alpha beta offset (i + j * s.ldc) i j sum).run (s.overwrite f done c) =
      .ok () (s.overwrite f done' c) := by
  rw [writeQuantized, offsetAt_eq hoffset hi hj, pure_bind]
  exact GemmShape.run_visit h hi hj hnew hold hf

-- ---------------------------------------------------------------------------
-- Kernels
-- ---------------------------------------------------------------------------

theorem run_columns {γ : Type} {c : Array γ} (h : s.Holds c.size) (team : Work.Team)
    {column : Nat → Panel → Run γ Unit} (element : Nat → Nat → Run γ Unit) {f : Nat → Nat → γ → γ}
    (hcolumn : ∀ j < s.n, column j (Panel.nth s c.size 1 j) =
      (List.range s.m).forM fun i => element i j)
    (helement : ∀ i < s.m, ∀ j < s.n,
      (element i j).run (s.overwrite f (fun i' j' => j' < j ∨ j' = j ∧ i' < i) c) =
        .ok () (s.overwrite f (fun i' j' => j' < j ∨ j' = j ∧ i' < i + 1) c)) :
    (Run.overPanels team s.ldc 1 s.n column).run c =
      .ok () (s.overwrite f (fun _ _ => true) c) := by
  refine h.run_overPanels Nat.one_pos h.panelsFit_one team fun j hj => ?_
  rw [Nat.mul_one] at hj
  rw [hcolumn j hj]
  have hrun := Run.run_forM_range
    (S := fun i => s.overwrite f (fun i' j' => j' < j ∨ j' = j ∧ i' < i) c)
    fun i hi => helement i hi j hj
  have hstart : s.overwrite f (fun i' j' => j' < j ∨ j' = j ∧ i' < 0) c =
      s.overwrite f (fun _ j' => j' < j * 1) c :=
    GemmShape.overwrite_congr fun i' _ j' _ => by simp
  have hend : s.overwrite f (fun i' j' => j' < j ∨ j' = j ∧ i' < s.m) c =
      s.overwrite f (fun _ j' => j' < (j + 1) * 1) c :=
    GemmShape.overwrite_congr fun i' hi' j' _ => by
      simp only [decide_eq_decide]
      omega
  rw [hstart, hend] at hrun
  exact hrun

/-- In column order, one element after those before it. -/
theorem column_next (i j i' j' : Nat) :
    decide (j' < j ∨ j' = j ∧ i' < i + 1) =
      (decide (j' < j ∨ j' = j ∧ i' < i) || decide (i' = i ∧ j' = j)) := by
  rw [← Bool.decide_or, decide_eq_decide]
  omega

theorem run_float {A B : Type} {q : Request α A B} {a b : Operand α} {c : Array α}
    (h : q.shape.Ready a b c.size) (hbias : ∀ xs, q.bias = some xs → q.shape.m ≤ xs.size)
    (team : Work.Team) :
    (float ar team q a b).run c =
      .ok () (q.shape.overwrite (floatValue ar a b q.shape.k q.alpha q.beta q.bias)
        (fun _ _ => true) c) := by
  refine run_columns h.holds team _ (fun _ _ => rfl) fun i hi j hj => ?_
  exact run_floatElement ar h hbias hi hj (fun i' _ j' _ => column_next i j i' j') (by simp)

theorem run_int {A B : Type} {q : Request α A B} {a b : Operand Int32} {c : Array Int32}
    (h : q.shape.Ready a b c.size) (hoffset : Offset.Reaches q.offset q.shape.m q.shape.n)
    (team : Work.Team) :
    (int ar team q a b).run c =
      .ok () (q.shape.overwrite (intValue ar a b q.shape.k q.alpha q.beta q.offset)
        (fun _ _ => true) c) := by
  refine run_columns h.holds team _ (fun _ _ => rfl) fun i hi j hj => ?_
  rw [intDot_eq h hi hj, pure_bind, Panel.cell_column h.holds hi hj, pure_bind]
  exact run_writeQuantized ar h.holds hoffset hi hj (fun _ => rfl)
    (fun i' _ j' _ => column_next i j i' j') (by simp)

theorem run_addBias {c bias : Array α} (h : s.Holds c.size) (hbias : s.m ≤ bias.size)
    (team : Work.Team) :
    (addBias ar team s bias).run c =
      .ok () (s.overwrite (fun i _ old => ar.add old (bias.getD i ar.zero))
        (fun _ _ => true) c) := by
  have hrows (j : Nat) (hj : j < s.n) :
      min s.m (min (Panel.nth s c.size 1 j).length bias.size) = s.m := by
    have hm := h.m
    obtain ⟨hlast, -⟩ := Panel.nth_holds h h.panelsFit_one (by omega : s.m - 1 < s.m) Nat.one_pos
      (by omega : j * 1 + 0 < s.n)
    omega
  refine run_columns h team (fun i j => do
    let position ← (Panel.nth s c.size 1 j).cell i
    let old ← Run.read position
    Run.write position (ar.add old (← Run.fetch bias i)))
    (fun j hj => by rw [hrows j hj]) fun i hi j hj => ?_
  have hlt : i < bias.size := Nat.lt_of_lt_of_le hi hbias
  rw [Panel.cell_column h hi hj, pure_bind]
  simp only [Run.fetch_of_lt hlt, pure_bind]
  exact GemmShape.run_visit h hi hj (fun i' _ j' _ => column_next i j i' j') (by simp)
    fun old => by simp [hlt]

end Reference

end JitGemm
