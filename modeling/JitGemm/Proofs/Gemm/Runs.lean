import JitGemm.Gemm.Run

/-!
# Loops of runs

Work that only reads is a constant: it equals `pure` of its answer. Loops that write are followed
from state to state, by one equation per round. What is known of a run only by its end, or not even
by that, follows from its steps: a run that ends well has passed every one of them, and what every
step keeps the run keeps.
-/

namespace JitGemm

namespace Run

variable {γ β : Type}

-- ---------------------------------------------------------------------------
-- Single accesses
-- ---------------------------------------------------------------------------

theorem fetch_of_lt {xs : Array β} {i : Nat} (h : i < xs.size) :
    (fetch xs i : Run γ β) = pure xs[i] := by
  simp [fetch, h]

theorem run_read {xs : Array γ} {i : Nat} {v : γ} (h : xs[i]? = some v) :
    (read i).run xs = .ok v xs := by
  simp [read, EStateM.run_bind, fetch, h]

theorem run_write {c : Array γ} {i : Nat} {v : γ} (h : i < c.size) :
    (write i v).run c = .ok () (c.setIfInBounds i v) := by
  simp [write, EStateM.run, h]

theorem run_bind_ok {σ : Type} {x : Run γ β} {f : β → Run γ σ} {c c' : Array γ} {b : β}
    (h : x.run c = .ok b c') : (x >>= f).run c = (f b).run c' := by
  simp [EStateM.run_bind, h]

/-- A run of two steps ends well only if both do. -/
theorem run_bind_eq_ok {σ : Type} {x : Run γ β} {f : β → Run γ σ} {c c' : Array γ} {s : σ} :
    (x >>= f).run c = .ok s c' ↔ ∃ b d, x.run c = .ok b d ∧ (f b).run d = .ok s c' := by
  rw [EStateM.run_bind]
  cases x.run c with
  | ok b d =>
    constructor
    · exact fun h => ⟨b, d, rfl, h⟩
    · rintro ⟨_, _, ⟨⟩, h⟩
      exact h
  | error => exact ⟨nofun, fun ⟨_, _, h, _⟩ => nomatch h⟩

-- ---------------------------------------------------------------------------
-- Loops that only read
-- ---------------------------------------------------------------------------

theorem mapM_eq_pure {ι : Type} {l : List ι} {f : ι → Run γ β} {g : ι → β}
    (h : ∀ i ∈ l, f i = pure (g i)) : l.mapM f = pure (l.map g) := by
  induction l with
  | nil => rfl
  | cons i l ih =>
    rw [List.mapM_cons, h i List.mem_cons_self, ih fun j hj => h j (List.mem_cons_of_mem _ hj)]
    simp

theorem foldlM_eq_pure {ι : Type} {l : List ι} {f : β → ι → Run γ β} {g : β → ι → β}
    (h : ∀ acc, ∀ i ∈ l, f acc i = pure (g acc i)) (z : β) :
    l.foldlM f z = pure (l.foldl g z) := by
  induction l generalizing z with
  | nil => rfl
  | cons i l ih =>
    rw [List.foldlM_cons, h z i List.mem_cons_self, pure_bind, List.foldl_cons]
    exact ih (fun acc j hj => h acc j (List.mem_cons_of_mem _ hj)) _

-- ---------------------------------------------------------------------------
-- Loops that write
-- ---------------------------------------------------------------------------

/-- A loop that carries a value: what holds of the value before a round and where C stands are both
moved on by the round. -/
theorem run_foldlM {ι σ : Type} {l : List ι} {f : σ → ι → Run γ σ} {P : Nat → σ → Prop}
    {S : Nat → Array γ} {z : σ} (hz : P 0 z)
    (h : ∀ i (hi : i < l.length) a, P i a →
      ∃ b, (f a l[i]).run (S i) = .ok b (S (i + 1)) ∧ P (i + 1) b) :
    ∃ b, (l.foldlM f z).run (S 0) = .ok b (S l.length) ∧ P l.length b := by
  induction l generalizing P S z with
  | nil => exact ⟨z, rfl, hz⟩
  | cons i l ih =>
    obtain ⟨a, ha, hP⟩ := h 0 (Nat.zero_lt_succ _) z hz
    have hfirst : (f z i).run (S 0) = .ok a (S 1) := ha
    obtain ⟨b, hb, hQ⟩ := ih (P := fun n => P (n + 1)) (S := fun n => S (n + 1)) hP
      fun j hj => h (j + 1) (by simpa using hj)
    refine ⟨b, ?_, by simpa using hQ⟩
    rw [List.foldlM_cons, run_bind_ok hfirst, hb]
    simp

theorem forM_cons {ι : Type} (i : ι) (l : List ι) (f : ι → Run γ Unit) :
    (i :: l).forM f = f i >>= fun _ => l.forM f := rfl

theorem forM_congr {ι : Type} {l : List ι} {f g : ι → Run γ Unit} (h : ∀ i ∈ l, f i = g i) :
    l.forM f = l.forM g := by
  induction l with
  | nil => rfl
  | cons i l ih =>
    rw [forM_cons, forM_cons, h i List.mem_cons_self,
      ih fun j hj => h j (List.mem_cons_of_mem _ hj)]

theorem run_forM {ι : Type} {l : List ι} {f : ι → Run γ Unit} {S : Nat → Array γ}
    (h : ∀ i (hi : i < l.length), (f l[i]).run (S i) = .ok () (S (i + 1))) :
    (l.forM f).run (S 0) = .ok () (S l.length) := by
  induction l generalizing S with
  | nil => rfl
  | cons i l ih =>
    have hrest := ih (S := fun n => S (n + 1)) fun j hj => h (j + 1) (by simpa using hj)
    have hfirst : (f i).run (S 0) = .ok () (S 1) := h 0 (Nat.zero_lt_succ _)
    rw [forM_cons, run_bind_ok hfirst, hrest]
    simp

theorem run_forM_range {n : Nat} {f : Nat → Run γ Unit} {S : Nat → Array γ}
    (h : ∀ i < n, (f i).run (S i) = .ok () (S (i + 1))) :
    ((List.range n).forM f).run (S 0) = .ok () (S n) := by
  have hrun := run_forM (l := List.range n) (f := f) (S := S)
    fun i hi => by simpa using h i (by simpa using hi)
  simpa using hrun

-- ---------------------------------------------------------------------------
-- What a run that ends well has passed
-- ---------------------------------------------------------------------------

/-- A loop ends well only if every round does. -/
theorem forM_round_ok {ι : Type} {l : List ι} {f : ι → Run γ Unit} {c c' : Array γ}
    (h : (l.forM f).run c = .ok () c') {i : ι} (hi : i ∈ l) :
    ∃ d d', (f i).run d = .ok () d' := by
  induction l generalizing c with
  | nil => simp at hi
  | cons j l ih =>
    rw [forM_cons, run_bind_eq_ok] at h
    obtain ⟨_, d, hj, hrest⟩ := h
    rcases List.mem_cons.mp hi with rfl | hi
    · exact ⟨c, d, hj⟩
    · exact ih hrest hi

theorem foldlM_round_ok {ι σ : Type} {l : List ι} {f : σ → ι → Run γ σ} {c c' : Array γ} {z s : σ}
    (h : (l.foldlM f z).run c = .ok s c') {i : ι} (hi : i ∈ l) :
    ∃ a d b d', (f a i).run d = .ok b d' := by
  induction l generalizing c z with
  | nil => simp at hi
  | cons j l ih =>
    rw [List.foldlM_cons, run_bind_eq_ok] at h
    obtain ⟨b, d, hj, hrest⟩ := h
    rcases List.mem_cons.mp hi with rfl | hi
    · exact ⟨z, c, b, d, hj⟩
    · exact ih hrest hi

def Ends (run : Run γ β) (c : Array γ) : Prop := ∃ b c', run.run c = .ok b c'

namespace Ends

variable {ι σ : Type} {l : List ι} {c : Array γ}

theorem bind {x : Run γ β} {f : β → Run γ σ} (h : (x >>= f).Ends c) :
    x.Ends c ∧ ∃ b d, (f b).Ends d := by
  obtain ⟨s, c', h⟩ := h
  obtain ⟨b, d, hx, hf⟩ := run_bind_eq_ok.mp h
  exact ⟨⟨b, d, hx⟩, b, d, s, c', hf⟩

theorem forM {f : ι → Run γ Unit} (h : Ends (l.forM f) c) {i : ι} (hi : i ∈ l) :
    ∃ d, (f i).Ends d := by
  obtain ⟨_, c', h⟩ := h
  obtain ⟨d, d', hd⟩ := forM_round_ok h hi
  exact ⟨d, (), d', hd⟩

theorem foldlM {f : σ → ι → Run γ σ} {z : σ} (h : Ends (l.foldlM f z) c) {i : ι} (hi : i ∈ l) :
    ∃ a d, (f a i).Ends d := by
  obtain ⟨s, c', h⟩ := h
  obtain ⟨a, d, b, d', hd⟩ := foldlM_round_ok h hi
  exact ⟨a, d, b, d', hd⟩

end Ends

-- ---------------------------------------------------------------------------
-- What every step of a run keeps
-- ---------------------------------------------------------------------------

/-- C as a run leaves it, at its end or at a fault. -/
def left (run : Run γ β) (c : Array γ) : Array γ :=
  match run.run c with
  | .ok _ c => c
  | .error _ c => c

theorem left_of_ok {run : Run γ β} {c c' : Array γ} {b : β} (h : run.run c = .ok b c') :
    run.left c = c' := by
  rw [left, h]

/-- What comes second starts from the C that the first step left. -/
theorem left_bind {σ : Type} (x : Run γ β) (f : β → Run γ σ) (c : Array γ) :
    (x >>= f).left c = x.left c ∨ ∃ b, (x >>= f).left c = (f b).left (x.left c) := by
  simp only [left, EStateM.run_bind]
  cases x.run c with
  | ok b d => exact .inr ⟨b, rfl⟩
  | error e d => exact .inl rfl

/-- A run leaves what a view shows of C as it was. -/
def Keeps {δ : Type} (view : Array γ → δ) (run : Run γ β) : Prop :=
  ∀ c, view (run.left c) = view c

section

variable {δ ι σ : Type} {view : Array γ → δ}

theorem keeps_pure (b : β) : (pure b : Run γ β).Keeps view := fun _ => rfl

theorem keeps_throw (fault : RunFault) : (throw fault : Run γ β).Keeps view := fun _ => rfl

theorem keeps_get : (get : Run γ (Array γ)).Keeps view := fun _ => rfl

theorem keeps_fetch (xs : Array β) (i : Nat) : (fetch xs i : Run γ β).Keeps view := by
  rw [fetch]
  split
  · exact keeps_pure _
  · exact keeps_throw _

theorem keeps_read (i : Nat) : (read i : Run γ γ).Keeps view := fun c =>
  keeps_fetch c i c

theorem keeps_write {i : Nat} (h : ∀ c v, view (c.setIfInBounds i v) = view c) (v : γ) :
    (write i v).Keeps view := by
  intro c
  by_cases hi : i < c.size
  · rw [left_of_ok (run_write hi), h]
  · simp [left, write, EStateM.run, hi]

theorem Keeps.bind {x : Run γ β} {f : β → Run γ σ} (hx : x.Keeps view)
    (hf : ∀ b, (f b).Keeps view) : (x >>= f).Keeps view := by
  intro c
  rcases left_bind x f c with hleft | ⟨b, hleft⟩
  · rw [hleft, hx]
  · rw [hleft, hf, hx]

theorem Keeps.forM {l : List ι} {f : ι → Run γ Unit} (h : ∀ i ∈ l, (f i).Keeps view) :
    Keeps view (l.forM f) := by
  induction l with
  | nil => exact keeps_pure ()
  | cons i l ih =>
    rw [forM_cons]
    exact (h i List.mem_cons_self).bind fun _ => ih fun j hj => h j (List.mem_cons_of_mem _ hj)

theorem Keeps.foldlM {l : List ι} {f : σ → ι → Run γ σ} (h : ∀ a, ∀ i ∈ l, (f a i).Keeps view)
    (z : σ) : Keeps view (l.foldlM f z) := by
  induction l generalizing z with
  | nil => exact keeps_pure z
  | cons i l ih =>
    rw [List.foldlM_cons]
    exact (h z i List.mem_cons_self).bind
      fun b => ih (fun a j hj => h a j (List.mem_cons_of_mem _ hj)) b

theorem Keeps.mapM {l : List ι} {f : ι → Run γ β} (h : ∀ i ∈ l, (f i).Keeps view) :
    Keeps view (l.mapM f) := by
  induction l with
  | nil => exact keeps_pure []
  | cons i l ih =>
    rw [List.mapM_cons]
    exact (h i List.mem_cons_self).bind fun _ =>
      (ih fun j hj => h j (List.mem_cons_of_mem _ hj)).bind fun _ => keeps_pure _

end

end Run

section

variable {γ δ : Type} {view : Array γ → δ}

theorem Panel.keeps_cell (p : Panel) (i : Nat) : (p.cell i : Run γ Nat).Keeps view := by
  rw [cell]
  split
  · exact Run.keeps_pure _
  · exact Run.keeps_throw _

theorem Panel.keeps_slice (p : Panel) (i count : Nat) :
    (p.slice i count : Run γ Nat).Keeps view := by
  rw [slice]
  split
  · exact Run.keeps_pure _
  · exact Run.keeps_throw _

theorem Operand.keeps_entry {V : Type} (x : Operand V) (r c : Nat) :
    (x.entry r c : Run γ V).Keeps view := by
  rw [entry]
  split
  · exact Run.keeps_pure _
  · exact Run.keeps_throw _

end

end JitGemm
