import JitGemm.Proofs.Gemm.Bounds
import JitGemm.Proofs.Gemm.Runs
import JitGemm.Proofs.Work.Partition

/-!
# The block of C that a product owns

A route visits the elements of an `m x n` block one by one, each once, and replaces every one by a
function of its old value. `GemmShape.overwrite` is C after some of them were visited: a route is
correct when it ends in the `overwrite` of the whole block.
-/

namespace JitGemm

-- ---------------------------------------------------------------------------
-- Operand values
-- ---------------------------------------------------------------------------

namespace Operand

variable {V : Type}

/-- Element at row `r` and column `c`, and `zero` where there is none. -/
def value (zero : V) (x : Operand V) (r c : Nat) : V := (x.lookup? r c).getD zero

def Defined (x : Operand V) : Prop :=
  ∀ r < x.matrix.rows, ∀ c < x.matrix.cols, (x.lookup? r c).isSome

theorem Defined.entry_eq {γ : Type} {x : Operand V} (h : x.Defined) (zero : V) {r c : Nat}
    (hr : r < x.matrix.rows) (hc : c < x.matrix.cols) :
    (x.entry r c : Run γ V) = pure (x.value zero r c) := by
  obtain ⟨v, hv⟩ := Option.isSome_iff_exists.mp (h r hr c hc)
  simp [entry, value, hv]

theorem defined_of {A : Type} {matrix : Matrix} {xs : Array A} {convert : A → V}
    (h : matrix.Covered xs.size) : (of matrix xs convert).Defined := by
  intro r hr c hc
  have hlt : matrix.index r c < xs.size := by
    rw [h.index_eq hr hc]
    exact h.exactIndex_lt hr hc
  simp [lookup?, of, hlt]

end Operand

-- ---------------------------------------------------------------------------
-- The block
-- ---------------------------------------------------------------------------

namespace GemmShape

variable {γ : Type}

/-- Whether a C of `size` elements holds the whole block, which is not empty, with its columns
apart. -/
structure Holds (s : GemmShape) (size : Nat) : Prop where
  m : 0 < s.m
  n : 0 < s.n
  wordN : s.n < Size.modulus
  wordLdc : s.ldc < Size.modulus
  rows : s.m ≤ s.ldc
  inside : ∀ i < s.m, ∀ j < s.n, i + j * s.ldc < size

theorem position_mod_div {ldc i : Nat} (h : i < ldc) (j : Nat) :
    (i + j * ldc) % ldc = i ∧ (i + j * ldc) / ldc = j := by
  have hpos : 0 < ldc := by omega
  rw [Nat.add_mul_mod_self_right, Nat.mod_eq_of_lt h, Nat.add_mul_div_right _ _ hpos,
    Nat.div_eq_of_lt h, Nat.zero_add]
  exact ⟨rfl, rfl⟩

def element? (s : GemmShape) (xs : Array γ) (i j : Nat) : Option γ := xs[i + j * s.ldc]?

/-- Whether two arrays have the same elements outside the block. -/
def SameOutside (s : GemmShape) (xs ys : Array γ) : Prop :=
  ∀ x, (∀ i < s.m, ∀ j < s.n, x ≠ i + j * s.ldc) → xs[x]? = ys[x]?

/-- C after the elements `done` of the block were visited; `f` gives row, column and old value to
the new value. -/
def overwrite (s : GemmShape) (f : Nat → Nat → γ → γ) (done : Nat → Nat → Bool)
    (c : Array γ) : Array γ :=
  c.mapIdx fun x old =>
    let i := x % s.ldc
    let j := x / s.ldc
    if i < s.m ∧ j < s.n ∧ done i j = true then f i j old else old

section

variable {s : GemmShape} {f : Nat → Nat → γ → γ} {done done' : Nat → Nat → Bool} {c : Array γ}

@[simp] theorem size_overwrite : (s.overwrite f done c).size = c.size := by
  simp [overwrite]

theorem overwrite_congr (h : ∀ i < s.m, ∀ j < s.n, done i j = done' i j) :
    s.overwrite f done c = s.overwrite f done' c := by
  apply Array.ext
  · simp
  · intro x _ _
    simp only [overwrite, Array.getElem_mapIdx]
    by_cases hi : x % s.ldc < s.m
    · by_cases hj : x / s.ldc < s.n
      · rw [h _ hi _ hj]
      · simp [hj]
    · simp [hi]

theorem overwrite_none (h : ∀ i < s.m, ∀ j < s.n, done i j = false) :
    s.overwrite f done c = c := by
  have hnone : s.overwrite f done c = s.overwrite f (fun _ _ => false) c := overwrite_congr h
  rw [hnone]
  apply Array.ext
  · simp
  · intro x _ _
    simp [overwrite]

theorem element?_overwrite (h : s.m ≤ s.ldc) {i j : Nat} (hi : i < s.m) (hj : j < s.n) :
    s.element? (s.overwrite f done c) i j =
      (s.element? c i j).map fun old => if done i j then f i j old else old := by
  obtain ⟨hmod, hdiv⟩ := position_mod_div (Nat.lt_of_lt_of_le hi h) j
  simp only [element?, overwrite, Array.getElem?_mapIdx, hmod, hdiv, hi, hj, true_and]

theorem overwrite_sameOutside : s.SameOutside (s.overwrite f done c) c := by
  intro x hx
  have hnot : ¬ (x % s.ldc < s.m ∧ x / s.ldc < s.n ∧ done (x % s.ldc) (x / s.ldc) = true) := by
    rintro ⟨hi, hj, -⟩
    exact hx _ hi _ hj (by rw [Nat.mul_comm, Nat.mod_add_div])
  simp [overwrite, Array.getElem?_mapIdx, if_neg hnot]

theorem old_of_unvisited (h : s.Holds c.size) {i j : Nat} (hi : i < s.m) (hj : j < s.n)
    (hold : done i j = false) : ∃ old, s.element? c i j = some old ∧
      (s.overwrite f done c)[i + j * s.ldc]? = some old := by
  have helement : s.element? (s.overwrite f done c) i j = _ := element?_overwrite h.rows hi hj
  have hc : s.element? c i j = some _ := Array.getElem?_eq_getElem (h.inside i hi j hj)
  refine ⟨_, hc, ?_⟩
  rw [hc, Option.map_some, if_neg (by simp [hold])] at helement
  exact helement

/-- Visiting one more element writes it and nothing else. -/
theorem overwrite_visit (h : s.m ≤ s.ldc) {i j : Nat} (hi : i < s.m) (hj : j < s.n)
    (hnew : ∀ i' < s.m, ∀ j' < s.n, done' i' j' = (done i' j' || decide (i' = i ∧ j' = j)))
    (hold : done i j = false) {old : γ} (hc : s.element? c i j = some old) :
    (s.overwrite f done c).setIfInBounds (i + j * s.ldc) (f i j old) =
      s.overwrite f done' c := by
  obtain ⟨hmod, hdiv⟩ := position_mod_div (Nat.lt_of_lt_of_le hi h) j
  obtain ⟨hin, rfl⟩ := Array.getElem?_eq_some_iff.mp hc
  apply Array.ext
  · simp
  · intro x hx _
    have hxc : x < c.size := by simpa using hx
    by_cases hpos : i + j * s.ldc = x
    · subst hpos
      simp [overwrite, hmod, hdiv, hi, hj, hnew i hi j hj]
    · have hne : ¬ (x % s.ldc = i ∧ x / s.ldc = j) := by
        rintro ⟨rfl, rfl⟩
        exact hpos (by rw [Nat.mul_comm]; exact Nat.mod_add_div x s.ldc)
      rw [Array.getElem_setIfInBounds_ne (by simpa using hxc) hpos]
      simp only [overwrite, Array.getElem_mapIdx]
      by_cases hi' : x % s.ldc < s.m
      · by_cases hj' : x / s.ldc < s.n
        · simp [hnew _ hi' _ hj', hne]
        · simp [hj']
      · simp [hi']

theorem run_visit (h : s.Holds c.size) {i j : Nat} (hi : i < s.m) (hj : j < s.n)
    (hnew : ∀ i' < s.m, ∀ j' < s.n, done' i' j' = (done i' j' || decide (i' = i ∧ j' = j)))
    (hold : done i j = false) {g : γ → γ} (hg : ∀ v, g v = f i j v) :
    (do let old ← Run.read (i + j * s.ldc); Run.write (i + j * s.ldc) (g old)).run
        (s.overwrite f done c) = .ok () (s.overwrite f done' c) := by
  obtain ⟨old, hc, hread⟩ := old_of_unvisited (f := f) h hi hj hold
  rw [Run.run_bind_ok (Run.run_read hread), Run.run_write (by simpa using h.inside i hi j hj), hg,
    overwrite_visit h.rows hi hj hnew hold hc]

end

end GemmShape

-- ---------------------------------------------------------------------------
-- Panels
-- ---------------------------------------------------------------------------

/-- Whether panels of `nr` columns reach every row of the block. Only the width of a lone column can
be past a 64-bit word, and then it may still cover the rows. -/
def GemmShape.PanelsFit (s : GemmShape) (nr : Nat) : Prop :=
  s.ldc * nr < Size.modulus ∨ s.n = 1 ∧ s.m ≤ Size.wrap (s.ldc * nr)

theorem GemmShape.Holds.panelsFit_one {s : GemmShape} {size : Nat} (h : s.Holds size) :
    s.PanelsFit 1 :=
  .inl (by rw [Nat.mul_one]; exact h.wordLdc)

namespace Panel

/-- Panel `p` of a buffer cut into pieces of `nr` columns. -/
def nth (s : GemmShape) (size nr p : Nat) : Panel where
  start := p * Size.wrap (s.ldc * nr)
  length := min (Size.wrap (s.ldc * nr)) (size - p * Size.wrap (s.ldc * nr))

section

variable {s : GemmShape} {size nr : Nat}

/-- Only the first panel has a column of a single one. -/
theorem first_of_lone {p : Nat} (hnr : 0 < nr) (h : p * nr < 1) : p = 0 :=
  (Nat.mul_eq_zero.mp (Nat.lt_one_iff.mp h)).resolve_right hnr.ne'

/-- As many panels as the columns need, if C reaches the first element of each. -/
theorem split?_of_reach (hnr : 0 < nr) (hwidth : 0 < Size.wrap (s.ldc * nr))
    (h : ∀ p, p * nr < s.n → p * Size.wrap (s.ldc * nr) < size) :
    split? size s.ldc nr s.n = some ((List.range (Size.ceilDiv s.n nr)).map (nth s size nr)) := by
  rw [split?]
  simp only
  rw [if_neg (by omega), Nat.min_eq_left (Size.ceilDiv_le_ceilDiv hnr hwidth h)]
  rfl

theorem split?_eq (h : s.Holds size) (hnr : 0 < nr) (hw : s.PanelsFit nr) :
    split? size s.ldc nr s.n = some ((List.range (Size.ceilDiv s.n nr)).map (nth s size nr)) := by
  have hm := h.m
  rcases hw with hw | ⟨hone, hw⟩
  · refine split?_of_reach hnr ?_ fun p hp => ?_
    · rw [Size.wrap_of_lt hw]
      exact Nat.mul_pos (Nat.lt_of_lt_of_le hm h.rows) hnr
    · have hin := h.inside 0 hm _ hp
      rw [Nat.zero_add, Nat.mul_assoc, Nat.mul_comm nr] at hin
      simpa only [Size.wrap_of_lt hw] using hin
  · refine split?_of_reach hnr (Nat.lt_of_lt_of_le hm hw) fun p hp => ?_
    have hin := h.inside 0 hm 0 h.n
    obtain rfl : p = 0 := first_of_lone hnr (by omega)
    omega

/-- Local position of an element in the panel that holds its column. -/
theorem local_lt {i jj : Nat} (h : s.m ≤ s.ldc) (hi : i < s.m) (hjj : jj < nr) :
    i + jj * s.ldc < s.ldc * nr := by
  rw [Nat.mul_comm jj]
  exact Nat.add_mul_lt_mul_of_lt_of_lt (Nat.lt_of_lt_of_le hi h) hjj

theorem global_eq (ldc nr p jj i : Nat) :
    p * (ldc * nr) + (i + jj * ldc) = i + (p * nr + jj) * ldc := by
  rw [Nat.add_mul, Nat.mul_assoc, Nat.mul_comm ldc nr]
  omega

/-- An element is where the panel of its column has it, if the width of a panel is a word. -/
theorem nth_wide {p i jj : Nat} (hrows : s.m ≤ s.ldc) (hw : s.ldc * nr < Size.modulus)
    (hi : i < s.m) (hjj : jj < nr) (hin : i + (p * nr + jj) * s.ldc < size) :
    i + jj * s.ldc < (nth s size nr p).length ∧
      (nth s size nr p).start + (i + jj * s.ldc) = i + (p * nr + jj) * s.ldc := by
  have hlocal := local_lt hrows hi hjj
  rw [← global_eq] at hin ⊢
  rw [nth, Size.wrap_of_lt hw]
  exact ⟨Nat.lt_min.mpr ⟨hlocal, by omega⟩, rfl⟩

/-- Elements of the block are where the panel of their column has them. -/
theorem nth_holds {p i jj : Nat} (h : s.Holds size) (hw : s.PanelsFit nr) (hi : i < s.m)
    (hjj : jj < nr) (hj : p * nr + jj < s.n) :
    i + jj * s.ldc < (nth s size nr p).length ∧
      (nth s size nr p).start + (i + jj * s.ldc) = i + (p * nr + jj) * s.ldc := by
  have hglobal := h.inside i hi _ hj
  rcases hw with hw | ⟨hone, hw⟩
  · exact nth_wide h.rows hw hi hjj hglobal
  · obtain rfl : jj = 0 := by omega
    obtain rfl : p = 0 := first_of_lone hjj (by omega)
    simp only [nth, Nat.zero_mul, Nat.zero_add, Nat.add_zero, Nat.sub_zero] at hglobal ⊢
    exact ⟨Nat.lt_min.mpr ⟨by omega, hglobal⟩, trivial⟩

theorem cell_eq {γ : Type} {p i jj : Nat} (h : s.Holds size) (hw : s.PanelsFit nr) (hi : i < s.m)
    (hjj : jj < nr) (hj : p * nr + jj < s.n) :
    ((nth s size nr p).cell (i + jj * s.ldc) : Run γ Nat) = pure (i + (p * nr + jj) * s.ldc) := by
  obtain ⟨hlt, heq⟩ := nth_holds h hw hi hjj hj
  rw [cell, if_pos hlt, heq]

theorem cell_column {γ : Type} {i j : Nat} (h : s.Holds size) (hi : i < s.m) (hj : j < s.n) :
    ((nth s size 1 j).cell i : Run γ Nat) = pure (i + j * s.ldc) := by
  have hcell := cell_eq (γ := γ) (p := j) h h.panelsFit_one hi Nat.one_pos (by omega)
  rwa [Nat.zero_mul, Nat.add_zero, Nat.mul_one, Nat.add_zero] at hcell

theorem slice_eq {γ : Type} {p i jj count : Nat} (h : s.Holds size) (hw : s.PanelsFit nr)
    (hcount : 0 < count) (hi : i + count ≤ s.m) (hjj : jj < nr) (hj : p * nr + jj < s.n) :
    ((nth s size nr p).slice (i + jj * s.ldc) count : Run γ Nat) =
      pure (i + (p * nr + jj) * s.ldc) := by
  have hlast : i + (count - 1) < s.m := by omega
  obtain ⟨hlt, -⟩ := nth_holds h hw hlast hjj hj
  obtain ⟨-, heq⟩ := nth_holds h hw (by omega : i < s.m) hjj hj
  rw [slice, if_pos (by omega), heq]

end

end Panel

section

variable {γ : Type} {s : GemmShape} {nr : Nat} {c : Array γ}

/-- The panels are done one after the other, whatever the team. -/
theorem Run.overPanels_eq (h : s.Holds c.size) (hnr : 0 < nr) (hw : s.PanelsFit nr)
    (team : Work.Team) (work : Nat → Panel → Run γ Unit) :
    (Run.overPanels team s.ldc nr s.n work).run c =
      ((List.range (Size.ceilDiv s.n nr)).forM fun p =>
        work p (Panel.nth s c.size nr p)).run c := by
  have hcount : Size.ceilDiv s.n nr < Size.modulus :=
    Nat.lt_of_le_of_lt (Size.ceilDiv_le_self hnr) h.wordN
  rw [overPanels, run_bind_ok (EStateM.run_get c)]
  simp only [Panel.split?_eq h hnr hw, List.length_map, List.length_range,
    Work.Team.items_eq team hcount]
  rw [forM_congr]
  intro p hp
  simp [List.mem_range.mp hp]

/-- Work that does panel after panel, with `nr` columns each, does the whole block. -/
theorem GemmShape.Holds.run_overPanels (h : s.Holds c.size) (hnr : 0 < nr) (hw : s.PanelsFit nr)
    (team : Work.Team) {work : Nat → Panel → Run γ Unit} {f : Nat → Nat → γ → γ}
    (hwork : ∀ p, p * nr < s.n →
      (work p (Panel.nth s c.size nr p)).run (s.overwrite f (fun _ j => j < p * nr) c) =
        .ok () (s.overwrite f (fun _ j => j < (p + 1) * nr) c)) :
    (Run.overPanels team s.ldc nr s.n work).run c =
      .ok () (s.overwrite f (fun _ _ => true) c) := by
  have hrun := Run.run_forM_range (S := fun p => s.overwrite f (fun _ j => j < p * nr) c)
    fun p hp => hwork p ((Size.lt_ceilDiv hnr).mp hp)
  have hstart : s.overwrite f (fun _ j => j < 0 * nr) c = c :=
    overwrite_none fun i _ j _ => by simp
  have hend : s.overwrite f (fun _ j => j < Size.ceilDiv s.n nr * nr) c =
      s.overwrite f (fun _ _ => true) c := by
    apply overwrite_congr
    intro i _ j hj
    have hlast : s.n ≤ Size.ceilDiv s.n nr * nr := Size.le_ceilDiv_mul hnr
    simp only [decide_eq_true_eq]
    omega
  rw [Run.overPanels_eq h hnr hw team, ← hend, ← hrun, hstart]

end

-- ---------------------------------------------------------------------------
-- Calls that can be run
-- ---------------------------------------------------------------------------

/-- Shape, operands and C of an accepted call with a block to write. -/
structure GemmShape.Ready (s : GemmShape) {V : Type} (a b : Operand V) (size : Nat) : Prop where
  holds : s.Holds size
  rowsA : a.matrix.rows = s.m
  colsA : a.matrix.cols = s.k
  rowsB : b.matrix.rows = s.k
  colsB : b.matrix.cols = s.n
  definedA : a.Defined
  definedB : b.Defined

theorem GemmShape.Ready.entryA {s : GemmShape} {V γ : Type} {a b : Operand V} {size i p : Nat}
    (h : s.Ready a b size) (zero : V) (hi : i < s.m) (hp : p < s.k) :
    (a.entry i p : Run γ V) = pure (a.value zero i p) :=
  h.definedA.entry_eq zero (h.rowsA ▸ hi) (h.colsA ▸ hp)

theorem GemmShape.Ready.entryB {s : GemmShape} {V γ : Type} {a b : Operand V} {size p j : Nat}
    (h : s.Ready a b size) (zero : V) (hp : p < s.k) (hj : j < s.n) :
    (b.entry p j : Run γ V) = pure (b.value zero p j) :=
  h.definedB.entry_eq zero (h.rowsB ▸ hp) (h.colsB ▸ hj)

/-- A call with work to do has a block to write. -/
theorem GemmShape.block_of_work {s : GemmShape} (h : s.degenerate = false) : 0 < s.m ∧ 0 < s.n := by
  simp [degenerate] at h
  omega

theorem GemmShape.steps_of_work {s : GemmShape} (h : s.degenerate = false) : 0 < s.k := by
  simp [degenerate] at h
  omega

namespace Outline

theorem Accepted.holds {o : Outline} (h : o.Accepted) (hblock : 0 < o.shape.m ∧ 0 < o.shape.n) :
    o.shape.Holds o.lenC where
  m := hblock.1
  n := hblock.2
  wordN := h.fits.n
  wordLdc := h.fits.ldc
  rows := h.c.rows
  inside := fun _ hi _ hj => h.c.exactIndex_lt hi hj

/-- An accepted call with operands over its buffers can be run. -/
theorem Accepted.ready {o : Outline} {A B V : Type} (h : o.Accepted)
    (hblock : 0 < o.shape.m ∧ 0 < o.shape.n) {xs : Array A} {ys : Array B} (ha : xs.size = o.lenA)
    (hb : ys.size = o.lenB) (convertA : A → V) (convertB : B → V) :
    o.shape.Ready (.of (o.shape.a o.elemA) xs convertA) (.of (o.shape.b o.elemB) ys convertB)
      o.lenC where
  holds := h.holds hblock
  rowsA := rfl
  colsA := rfl
  rowsB := rfl
  colsB := rfl
  definedA := Operand.defined_of (ha ▸ h.a)
  definedB := Operand.defined_of (hb ▸ h.b)

end Outline

end JitGemm
