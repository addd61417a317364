import JitGemm.Code.Buffer

/-!
# Buffers grow

Nothing that is in a buffer is ever taken back. Code is appended, labels stay where they were bound,
and open branches and errors are kept.
-/

namespace JitGemm.Code

/-- Chunks that have room for the field of their branch. -/
def Chunk.Framed (c : Chunk) : Prop := ∀ br ∈ c.branch, br.offset + 4 ≤ c.bytes.length

theorem Chunk.framed_of_none {c : Chunk} (h : c.branch = none) : c.Framed := by
  simp [Framed, h]

theorem Chunk.branch_ofExcept (r : Except OperandFault (List UInt8)) :
    (Chunk.ofExcept r).branch = none := by
  cases r <;> rfl

namespace Buffer

variable {b b' b'' : Buffer}

@[simp] theorem bytes_put (b : Buffer) (c : Chunk) :
    (b.put c).bytes.toList = b.bytes.toList ++ c.bytes := by
  simp [put]

@[simp] theorem size_put (b : Buffer) (c : Chunk) :
    (b.put c).bytes.size = b.bytes.size + c.bytes.length := by
  simp [← Array.length_toList]

@[simp] theorem error_put (b : Buffer) (c : Chunk) :
    (b.put c).error = none ↔ b.error = none ∧ c.fault = none := by
  simp [put]

theorem bytes_foldl_put {α : Type} (chunk : α → Chunk) (as : List α) (b : Buffer) :
    (as.foldl (fun b a => b.put (chunk a)) b).bytes.toList =
      b.bytes.toList ++ as.flatMap fun a => (chunk a).bytes := by
  induction as generalizing b with
  | nil => simp
  | cons a as ih => rw [List.foldl_cons, ih, bytes_put, List.append_assoc, List.flatMap_cons]

theorem error_foldl_put {α : Type} (chunk : α → Chunk) (as : List α) (b : Buffer) :
    (as.foldl (fun b a => b.put (chunk a)) b).error = none ↔
      b.error = none ∧ ∀ a ∈ as, (chunk a).fault = none := by
  induction as generalizing b with
  | nil => simp
  | cons a as ih => rw [List.foldl_cons, ih, error_put, List.forall_mem_cons, and_assoc]

@[simp] theorem bytes_fail (b : Buffer) (e : CodeError) : (b.fail e).bytes = b.bytes := rfl

@[simp] theorem error_fail (b : Buffer) (e : CodeError) : (b.fail e).error ≠ none := by
  simp [fail]

@[simp] theorem bytes_bind (b : Buffer) (l : Label) : (b.bind l).bytes = b.bytes := by
  unfold bind
  split <;> rfl

@[simp] theorem fixups_bind (b : Buffer) (l : Label) : (b.bind l).fixups = b.fixups := by
  unfold bind
  split <;> rfl

/-- Without an error, binding a label gives it the position at the end of the code. -/
theorem bind_ok {l : Label} (h : (b.bind l).error = none) :
    b.labels[l.id]? = some none ∧
      b.bind l = { b with labels := b.labels.setIfInBounds l.id (some b.bytes.size) } := by
  unfold bind at h ⊢
  split at h
  · rename_i hfree
    exact ⟨hfree, rfl⟩
  · simp at h
  · simp at h

theorem position_bind {l : Label} (h : (b.bind l).error = none) :
    (b.bind l).position? l = some b.bytes.size := by
  obtain ⟨hfree, hbind⟩ := bind_ok h
  have hlt : l.id < b.labels.size := (Array.getElem?_eq_some_iff.mp hfree).1
  simp [hbind, position?, hlt]

-- ---------------------------------------------------------------------------
-- Growth
-- ---------------------------------------------------------------------------

/-- `b'` is `b` with more in it; the fields of later branches lie in later code. -/
structure Extends (b b' : Buffer) : Prop where
  bytes : ∃ more, b'.bytes.toList = b.bytes.toList ++ more
  fixups : ∃ more, b'.fixups.toList = b.fixups.toList ++ more ∧
    ∀ f ∈ more, b.bytes.size ≤ f.position
  labels : ∀ l p, b.position? l = some p → b'.position? l = some p
  error : b'.error = none → b.error = none

theorem Extends.refl (b : Buffer) : b.Extends b where
  bytes := ⟨[], by simp⟩
  fixups := ⟨[], by simp⟩
  labels _ _ h := h
  error h := h

theorem Extends.size_le (h : b.Extends b') : b.bytes.size ≤ b'.bytes.size := by
  obtain ⟨more, hmore⟩ := h.bytes
  simp [← Array.length_toList, hmore]

theorem Extends.trans (h : b.Extends b') (h' : b'.Extends b'') : b.Extends b'' where
  bytes := by
    obtain ⟨more, hmore⟩ := h.bytes
    obtain ⟨more', hmore'⟩ := h'.bytes
    exact ⟨more ++ more', by simp [hmore', hmore]⟩
  fixups := by
    obtain ⟨more, hmore, hlate⟩ := h.fixups
    obtain ⟨more', hmore', hlate'⟩ := h'.fixups
    refine ⟨more ++ more', by simp [hmore', hmore], fun f hf => ?_⟩
    rcases List.mem_append.mp hf with hf | hf
    · exact hlate f hf
    · exact Nat.le_trans h.size_le (hlate' f hf)
  labels l p hp := h'.labels l p (h.labels l p hp)
  error he := h.error (h'.error he)

theorem extends_put (b : Buffer) (c : Chunk) : b.Extends (b.put c) where
  bytes := ⟨c.bytes, bytes_put b c⟩
  fixups := by
    cases hbranch : c.branch with
    | none => exact ⟨[], by simp [put, hbranch]⟩
    | some br => exact ⟨[⟨br.kind, b.bytes.size + br.offset, br.label⟩], by simp [put, hbranch]⟩
  labels _ _ h := h
  error h := ((error_put b c).mp h).1

theorem extends_fail (b : Buffer) (e : CodeError) : b.Extends (b.fail e) where
  bytes := ⟨[], by simp⟩
  fixups := ⟨[], by simp [fail]⟩
  labels _ _ h := h
  error h := absurd h (error_fail b e)

theorem extends_newLabel (b : Buffer) : b.Extends b.newLabel.2 where
  bytes := ⟨[], by simp [newLabel]⟩
  fixups := ⟨[], by simp [newLabel]⟩
  labels l p h := by
    have ho : b.labels[l.id]? = some (some p) := Option.join_eq_some_iff.mp h
    have hlt : l.id < b.labels.size := (Array.getElem?_eq_some_iff.mp ho).1
    simp [newLabel, position?, Array.getElem?_push, Nat.ne_of_lt hlt, ho]
  error h := h

theorem extends_bind (b : Buffer) (l : Label) : b.Extends (b.bind l) := by
  unfold bind
  split
  · rename_i hfree
    refine ⟨⟨[], by simp⟩, ⟨[], by simp⟩, fun l' p hp => ?_, fun h => h⟩
    -- a bound label is not the one that gets its position now
    have hne : l.id ≠ l'.id := by
      rintro heq
      simp [position?, ← heq, hfree] at hp
    simpa [position?, Array.getElem?_setIfInBounds, hne] using hp
  · exact extends_fail b _
  · exact extends_fail b _

-- ---------------------------------------------------------------------------
-- Branch fields
-- ---------------------------------------------------------------------------

/-- Branch fields lie inside the code, each one behind those before it. -/
structure Orderly (b : Buffer) : Prop where
  inside : ∀ f ∈ b.fixups.toList, f.position + 4 ≤ b.bytes.size
  apart : b.fixups.toList.Pairwise fun f g => f.position + 4 ≤ g.position

theorem orderly_empty : ({} : Buffer).Orderly := ⟨by simp, by simp⟩

theorem Orderly.put (h : b.Orderly) {c : Chunk} (hc : c.Framed) : (b.put c).Orderly := by
  have hsize := size_put b c
  cases hbranch : c.branch with
  | none =>
    have hfixups : (b.put c).fixups = b.fixups := by simp [Buffer.put, hbranch]
    refine ⟨fun f hf => ?_, by rw [hfixups]; exact h.apart⟩
    rw [hfixups] at hf
    exact Nat.le_trans (h.inside f hf) (by omega)
  | some br =>
    have hroom := hc br (by simp [hbranch])
    have hfixups : (b.put c).fixups.toList =
        b.fixups.toList ++ [⟨br.kind, b.bytes.size + br.offset, br.label⟩] := by
      simp [Buffer.put, hbranch]
    constructor
    · intro f hf
      rw [hfixups, List.mem_append, List.mem_singleton] at hf
      rcases hf with hf | rfl
      · exact Nat.le_trans (h.inside f hf) (by omega)
      · show b.bytes.size + br.offset + 4 ≤ (b.put c).bytes.size
        omega
    · rw [hfixups, List.pairwise_append]
      refine ⟨h.apart, List.pairwise_singleton _ _, fun f hf g hg => ?_⟩
      obtain rfl := List.mem_singleton.mp hg
      exact Nat.le_trans (h.inside f hf) (Nat.le_add_right _ _)

theorem Orderly.fail (h : b.Orderly) (e : CodeError) : (b.fail e).Orderly := ⟨h.inside, h.apart⟩

theorem Orderly.newLabel (h : b.Orderly) : b.newLabel.2.Orderly := ⟨h.inside, h.apart⟩

theorem Orderly.bind (h : b.Orderly) (l : Label) : (b.bind l).Orderly := by
  unfold Buffer.bind
  split
  · exact ⟨h.inside, h.apart⟩
  · exact h.fail _
  · exact h.fail _

end Buffer

end JitGemm.Code
