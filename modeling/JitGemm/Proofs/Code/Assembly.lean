import JitGemm.Proofs.Code.Resolution

/-!
# Sequences of calls on an assembler

What a sequence of calls leaves in a buffer, said without the buffer: its bytes, its open branches,
the position of each label, and the first error. Finishing it then answers with the first error, or
else with the first branch in emission order that leads nowhere or too far.
-/

namespace JitGemm.Code

/-- One call on an assembler with instructions `I`. -/
inductive Step (I : Type) where
  | emit (i : I)
  | newLabel
  | bind (l : Label)
  | fail (e : CodeError)

/-- Bytes that a distance counts in. -/
def BranchKind.unit : BranchKind → Nat
  | .rel32 => 1
  | _ => 4

/-- What a distance counts from. -/
def Fixup.origin (f : Fixup) : Nat :=
  match f.kind with
  | .rel32 => f.position + 4
  | _ => f.position

/-- Whether the whole units in so many bytes are a signed number of the field's width. -/
def BranchKind.Fits (k : BranchKind) (bytes : Int) : Prop :=
  -2 ^ (k.bits - 1) ≤ bytes.tdiv k.unit ∧ bytes.tdiv k.unit < 2 ^ (k.bits - 1)

instance (k : BranchKind) (bytes : Int) : Decidable (k.Fits bytes) :=
  inferInstanceAs (Decidable (_ ∧ _))

section

variable {I : Type} (chunk : I → Chunk)

namespace Step

def apply (b : Buffer) : Step I → Buffer
  | emit i => b.put (chunk i)
  | newLabel => b.newLabel.2
  | bind l => b.bind l
  | fail e => b.fail e

/-- The bytes of a call, with distances open. -/
def bytes : Step I → List UInt8
  | emit i => (chunk i).bytes
  | _ => []

def branch? : Step I → Option Branch
  | emit i => (chunk i).branch
  | _ => none

def isNewLabel : Step I → Bool
  | newLabel => true
  | _ => false

def binds (l : Label) : Step I → Bool
  | bind l' => l' = l
  | _ => false

/-- The error of a call that comes after calls without one. A label is there from the call that
makes it, and is bound once. -/
def error? (before : List (Step I)) : Step I → Option CodeError
  | emit i => (chunk i).fault.map .invalidOperand
  | newLabel => none
  | bind l =>
    if before.countP isNewLabel ≤ l.id then some (.unboundLabel l.id)
    else if before.any (binds l) then some (.invalidOperand (.labelBoundTwice l.id))
    else none
  | fail e => some e

end Step

def assemble (steps : List (Step I)) : Buffer := steps.foldl (Step.apply chunk) {}

def emitted (steps : List (Step I)) : List UInt8 := steps.flatMap (Step.bytes chunk)

/-- The open branches of calls that come after `position` bytes, in emission order. -/
def openBranches (position : Nat) : List (Step I) → List Fixup
  | [] => []
  | s :: rest =>
    ((s.branch? chunk).map fun br => ⟨br.kind, position + br.offset, br.label⟩).toList ++
      openBranches (position + (s.bytes chunk).length) rest

/-- Where calls that come after `position` bytes bind a label first. -/
def boundAt? (l : Label) (position : Nat) : List (Step I) → Option Nat
  | [] => none
  | s :: rest =>
    if s.binds l then some position else boundAt? l (position + (s.bytes chunk).length) rest

/-- The first error of calls that come after others without one. -/
def errorAfter? (before : List (Step I)) : List (Step I) → Option CodeError
  | [] => none
  | s :: rest => (s.error? chunk before).or (errorAfter? (before ++ [s]) rest)

def firstError? (steps : List (Step I)) : Option CodeError := errorAfter? chunk [] steps

/-- Why a branch cannot be resolved: its label is nowhere, or too far. -/
def unresolved? (steps : List (Step I)) (f : Fixup) : Option CodeError :=
  match boundAt? chunk f.label 0 steps with
  | none => some (.unboundLabel f.label.id)
  | some q =>
    if f.kind.Fits (q - f.origin) then none
    else some (.invalidOperand (.branchOutOfRange f.label.id))

def firstUnresolved? (steps : List (Step I)) : Option CodeError :=
  (openBranches chunk 0 steps).findSome? (unresolved? chunk steps)

-- ---------------------------------------------------------------------------
-- What is in the buffer
-- ---------------------------------------------------------------------------

variable {chunk} {steps : List (Step I)} {b : Buffer}

theorem bytes_apply (b : Buffer) (s : Step I) :
    (s.apply chunk b).bytes.toList = b.bytes.toList ++ s.bytes chunk := by
  cases s with
  | emit i => exact Buffer.bytes_put b (chunk i)
  | bind l => simp [Step.apply, Step.bytes]
  | newLabel | fail e => simp [Step.apply, Step.bytes, Buffer.newLabel]

theorem size_apply (b : Buffer) (s : Step I) :
    (s.apply chunk b).bytes.size = b.bytes.size + (s.bytes chunk).length := by
  simp [← Array.length_toList, bytes_apply]

theorem fixups_apply (b : Buffer) (s : Step I) :
    (s.apply chunk b).fixups.toList = b.fixups.toList ++
      ((s.branch? chunk).map fun br => ⟨br.kind, b.bytes.size + br.offset, br.label⟩).toList := by
  cases s with
  | emit i => cases h : (chunk i).branch <;> simp [Step.apply, Step.branch?, Buffer.put, h]
  | bind l => simp [Step.apply, Step.branch?]
  | newLabel | fail e => simp [Step.apply, Step.branch?, Buffer.newLabel, Buffer.fail]

theorem extends_apply (b : Buffer) (s : Step I) : b.Extends (s.apply chunk b) := by
  cases s with
  | emit i => exact b.extends_put (chunk i)
  | newLabel => exact b.extends_newLabel
  | bind l => exact b.extends_bind l
  | fail e => exact b.extends_fail e

theorem orderly_apply (hframed : ∀ i, (chunk i).Framed) (h : b.Orderly) (s : Step I) :
    (s.apply chunk b).Orderly := by
  cases s with
  | emit i => exact h.put (hframed i)
  | newLabel => exact h.newLabel
  | bind l => exact h.bind l
  | fail e => exact h.fail e

theorem bytes_foldl (steps : List (Step I)) (b : Buffer) :
    (steps.foldl (Step.apply chunk) b).bytes.toList = b.bytes.toList ++ emitted chunk steps := by
  induction steps generalizing b with
  | nil => simp [emitted]
  | cons s rest ih => simp [ih, bytes_apply, emitted]

theorem fixups_foldl (steps : List (Step I)) (b : Buffer) :
    (steps.foldl (Step.apply chunk) b).fixups.toList =
      b.fixups.toList ++ openBranches chunk b.bytes.size steps := by
  induction steps generalizing b with
  | nil => simp [openBranches]
  | cons s rest ih => simp [ih, fixups_apply, size_apply, openBranches]

theorem extends_foldl (steps : List (Step I)) (b : Buffer) :
    b.Extends (steps.foldl (Step.apply chunk) b) := by
  induction steps generalizing b with
  | nil => exact .refl b
  | cons s rest ih => exact (extends_apply b s).trans (ih _)

theorem orderly_foldl (hframed : ∀ i, (chunk i).Framed) (steps : List (Step I)) (h : b.Orderly) :
    (steps.foldl (Step.apply chunk) b).Orderly := by
  induction steps generalizing b with
  | nil => exact h
  | cons s rest ih => exact ih (orderly_apply hframed h s)

variable (chunk)

theorem bytes_assemble (steps : List (Step I)) :
    (assemble chunk steps).bytes.toList = emitted chunk steps := by
  simp [assemble, bytes_foldl]

theorem size_assemble (steps : List (Step I)) :
    (assemble chunk steps).bytes.size = (emitted chunk steps).length := by
  rw [← Array.length_toList, bytes_assemble]

theorem fixups_assemble (steps : List (Step I)) :
    (assemble chunk steps).fixups.toList = openBranches chunk 0 steps := by
  simp [assemble, fixups_foldl]

theorem assemble_append (before after : List (Step I)) :
    assemble chunk (before ++ after) = after.foldl (Step.apply chunk) (assemble chunk before) :=
  List.foldl_append

theorem orderly_assemble (hframed : ∀ i, (chunk i).Framed) (steps : List (Step I)) :
    (assemble chunk steps).Orderly :=
  orderly_foldl hframed steps Buffer.orderly_empty

-- ---------------------------------------------------------------------------
-- Labels and errors
-- ---------------------------------------------------------------------------

variable {chunk}

theorem labels_foldl (steps : List (Step I)) (b : Buffer) :
    (steps.foldl (Step.apply chunk) b).labels.size =
      b.labels.size + steps.countP Step.isNewLabel := by
  induction steps generalizing b with
  | nil => simp
  | cons s rest ih =>
    have hstep : (s.apply chunk b).labels.size =
        b.labels.size + if s.isNewLabel then 1 else 0 := by
      cases s with
      | newLabel => simp [Step.apply, Buffer.newLabel, Step.isNewLabel]
      | bind l =>
        simp only [Step.apply, Buffer.bind, Step.isNewLabel]
        split <;> simp [Buffer.fail]
      | emit i | fail e => rfl
    rw [List.foldl_cons, ih, hstep, List.countP_cons]
    omega

/-- While no error is pending, a label is where it was bound first. -/
theorem position_foldl (l : Label) (steps : List (Step I)) (b : Buffer)
    (h : (steps.foldl (Step.apply chunk) b).error = none) :
    (steps.foldl (Step.apply chunk) b).position? l =
      (b.position? l).or (boundAt? chunk l b.bytes.size steps) := by
  induction steps generalizing b with
  | nil => simp [boundAt?]
  | cons s rest ih =>
    have hstep : (s.apply chunk b).error = none := (extends_foldl rest _).error h
    rw [List.foldl_cons, ih _ h, size_apply, boundAt?]
    cases s with
    | emit i | fail e => rfl
    | newLabel =>
      have hsame : b.newLabel.2.position? l = b.position? l := by
        by_cases hl : l.id = b.labels.size
        · simp [Buffer.newLabel, Buffer.position?, hl]
        · simp [Buffer.newLabel, Buffer.position?, Array.getElem?_push, hl]
      simp [Step.apply, Step.binds, Step.bytes, hsame]
    | bind l' =>
      obtain ⟨hfree, hbind⟩ := Buffer.bind_ok hstep
      have hlt : l'.id < b.labels.size := (Array.getElem?_eq_some_iff.mp hfree).1
      by_cases hl : l' = l
      · subst hl
        have hbefore : b.position? l' = none := by simp [Buffer.position?, hfree]
        have hafter : (b.bind l').position? l' = some b.bytes.size := Buffer.position_bind hstep
        simp [Step.apply, Step.binds, hbefore, hafter]
      · have hid : l'.id ≠ l.id := fun heq => hl (congrArg Label.mk heq)
        simp [Step.apply, Step.binds, Step.bytes, hl, hbind, Buffer.position?, hid]

theorem position_assemble (h : (assemble chunk steps).error = none) (l : Label) :
    (assemble chunk steps).position? l = boundAt? chunk l 0 steps := by
  have hnone : ({} : Buffer).position? l = none := by simp [Buffer.position?]
  rw [assemble, position_foldl l steps {} h, hnone, Option.none_or]
  rfl

theorem isSome_boundAt? (chunk : I → Chunk) (l : Label) (steps : List (Step I)) (p : Nat) :
    (boundAt? chunk l p steps).isSome = steps.any (Step.binds l) := by
  induction steps generalizing p with
  | nil => rfl
  | cons s rest ih => by_cases h : s.binds l <;> simp [boundAt?, h, ih]

theorem error_kept (steps : List (Step I)) {b : Buffer} {e : CodeError} (h : b.error = some e) :
    (steps.foldl (Step.apply chunk) b).error = some e := by
  induction steps generalizing b with
  | nil => exact h
  | cons s rest ih =>
    refine ih ?_
    cases s with
    | newLabel => exact h
    | bind l =>
      simp only [Step.apply, Buffer.bind]
      split <;> simp [Buffer.fail, h]
    | emit i | fail e => simp [Step.apply, Buffer.put, Buffer.fail, h]

theorem error_apply {before : List (Step I)} (h : (assemble chunk before).error = none)
    (s : Step I) : (s.apply chunk (assemble chunk before)).error = s.error? chunk before := by
  cases s with
  | emit i | fail e => simp [Step.apply, Step.error?, Buffer.put, Buffer.fail, h]
  | newLabel => exact h
  | bind l =>
    have hsize : (assemble chunk before).labels.size = before.countP Step.isNewLabel := by
      simp [assemble, labels_foldl]
    -- a label has a slot once it was made, and the slot is filled once it was bound
    have hbound := isSome_boundAt? chunk l before 0
    rw [← position_assemble h] at hbound
    simp only [Step.apply, Step.error?, Buffer.bind]
    split
    · rename_i hfree
      have hlt : l.id < before.countP Step.isNewLabel :=
        hsize ▸ (Array.getElem?_eq_some_iff.mp hfree).1
      have hnot : before.any (Step.binds l) = false := by
        rw [← hbound, Buffer.position?, hfree]
        rfl
      rw [if_neg (Nat.not_le.mpr hlt), hnot]
      exact h
    · rename_i p htaken
      have hlt : l.id < before.countP Step.isNewLabel :=
        hsize ▸ (Array.getElem?_eq_some_iff.mp htaken).1
      have hbinds : before.any (Step.binds l) = true := by
        rw [← hbound, Buffer.position?, htaken]
        rfl
      rw [if_neg (Nat.not_le.mpr hlt), hbinds]
      simp [Buffer.fail, h]
    · rename_i hmissing
      have hle : before.countP Step.isNewLabel ≤ l.id :=
        hsize ▸ Array.getElem?_eq_none_iff.mp hmissing
      rw [if_pos hle]
      simp [Buffer.fail, h]

theorem error_append {before : List (Step I)} (h : (assemble chunk before).error = none)
    (steps : List (Step I)) :
    (assemble chunk (before ++ steps)).error = errorAfter? chunk before steps := by
  induction steps generalizing before with
  | nil => simpa [errorAfter?] using h
  | cons s rest ih =>
    have hone := error_apply h s
    have hnext : assemble chunk (before ++ [s]) = s.apply chunk (assemble chunk before) := by
      rw [assemble_append]
      rfl
    rw [errorAfter?]
    cases hs : s.error? chunk before with
    | none =>
      rw [hs, ← hnext] at hone
      rw [Option.none_or, ← ih hone, List.append_assoc, List.singleton_append]
    | some e =>
      rw [hs] at hone
      rw [assemble_append]
      exact error_kept rest hone

/-- The error of a buffer is the first one of its calls. -/
theorem error_assemble (steps : List (Step I)) :
    (assemble chunk steps).error = firstError? chunk steps :=
  error_append (show (assemble chunk []).error = none from rfl) steps

-- ---------------------------------------------------------------------------
-- Finishing
-- ---------------------------------------------------------------------------

theorem Fixup.reaches_iff_fits (f : Fixup) (q : Nat) :
    f.reaches q ↔ f.kind.Fits (q - f.origin) := by
  have hdistance : f.distance q = ((q : Int) - f.origin).tdiv f.kind.unit := by
    obtain ⟨kind, position, label⟩ := f
    cases kind with
    | rel32 => simp [Fixup.distance, Fixup.origin, BranchKind.unit]
    | imm26 | imm19 => rfl
  rw [Fixup.reaches_iff, hdistance, BranchKind.Fits]

/-- One branch after the other is resolved until one cannot be. -/
theorem foldlM_resolve {why : Fixup → Option CodeError}
    (hwhy : ∀ bytes f, match why f with
      | some e => b.resolve bytes f = .error e
      | none => ∃ out, b.resolve bytes f = .ok out)
    (fs : List Fixup) (bytes : Array UInt8) :
    match fs.findSome? why with
    | some e => fs.foldlM b.resolve bytes = .error e
    | none => ∃ out, fs.foldlM b.resolve bytes = .ok out := by
  induction fs generalizing bytes with
  | nil => exact ⟨bytes, rfl⟩
  | cons f fs ih =>
    have hfirst := hwhy bytes f
    rw [List.findSome?_cons, List.foldlM_cons]
    cases hf : why f with
    | some e =>
      simp only [hf] at hfirst
      simp [hfirst, Bind.bind, Except.bind]
    | none =>
      simp only [hf] at hfirst
      obtain ⟨mid, hmid⟩ := hfirst
      simpa [hmid, Bind.bind, Except.bind] using ih mid

/-- Finishing succeeds unless some call or some branch stands against it, and then answers with the
first one, errors of calls before those of branches. -/
theorem finish_assemble (chunk : I → Chunk) (steps : List (Step I)) :
    match (firstError? chunk steps).or (firstUnresolved? chunk steps) with
    | some e => (assemble chunk steps).finish = .error e
    | none => ∃ code, (assemble chunk steps).finish = .ok code := by
  rw [Buffer.finish, error_assemble]
  cases herror : firstError? chunk steps with
  | some e => rfl
  | none =>
    have hnone : (assemble chunk steps).error = none := (error_assemble steps).trans herror
    rw [Option.none_or, firstUnresolved?, ← fixups_assemble]
    refine foldlM_resolve (fun bytes f => ?_) _ _
    rw [Buffer.resolve, position_assemble hnone, unresolved?]
    cases boundAt? chunk f.label 0 steps with
    | none => rfl
    | some q =>
      by_cases hfits : f.kind.Fits (q - f.origin)
      · simp [hfits, (f.reaches_iff_fits q).mpr hfits]
      · simp [hfits, mt (f.reaches_iff_fits q).mp hfits]

end

end JitGemm.Code
