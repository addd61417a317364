import JitGemm.Proofs.Code.Assembly
import JitGemm.Proofs.Generator.Branches

/-!
# Linked code

Finished code is what the calls on an assembler emitted, with a distance in the field of each
branch, and the branch leads to where its label was bound. On x86-64 a distance replaces the zeros
of its field. On AArch64 it is or-ed into the instruction, and counts words: nothing is lost,
because every call leaves whole words.
-/

namespace JitGemm

open Code (Branch BranchKind Buffer Chunk Fixup Label Step)

inductive Architecture where
  | x86
  | arm64

namespace Architecture

def Instr : Architecture → Type
  | x86 => X86.Instr
  | arm64 => Arm64.Instr

def chunk : (a : Architecture) → a.Instr → Chunk
  | x86 => X86.Instr.chunk
  | arm64 => Arm64.Instr.chunk

/-- Where the instruction at an offset of some code leads, if it decodes to a branch. -/
def branchTarget? : Architecture → List UInt8 → Nat → Option Nat
  | x86 => X86.branchTarget?
  | arm64 => Arm64.branchTarget?

end Architecture

-- ---------------------------------------------------------------------------
-- Words around a field
-- ---------------------------------------------------------------------------

/-- Whether two words agree in all bits below and above the field of a branch. -/
def Code.BranchKind.SameAround (k : BranchKind) (w w' : UInt32) : Prop :=
  w.toNat % 2 ^ k.shift = w'.toNat % 2 ^ k.shift ∧
    w.toNat / 2 ^ (k.shift + k.bits) = w'.toNat / 2 ^ (k.shift + k.bits)

/-- A field that is or-ed in keeps to its bits. -/
theorem or_field_around (old : UInt32) {v shift bits : Nat} (hv : v < 2 ^ bits)
    (hfit : shift + bits ≤ 32) (hshift : shift < 32) :
    (old ||| UInt32.ofNat v <<< UInt32.ofNat shift).toNat % 2 ^ shift = old.toNat % 2 ^ shift ∧
      (old ||| UInt32.ofNat v <<< UInt32.ofNat shift).toNat / 2 ^ (shift + bits) =
        old.toNat / 2 ^ (shift + bits) := by
  have hwide : v * 2 ^ shift < 2 ^ (shift + bits) := by
    rw [Nat.pow_add, Nat.mul_comm]
    exact Nat.mul_lt_mul_of_pos_left hv (Nat.two_pow_pos shift)
  have hword : 2 ^ (shift + bits) ≤ 2 ^ 32 := Nat.pow_le_pow_right (by decide) hfit
  have hsmall : v < 2 ^ 32 :=
    Nat.lt_of_lt_of_le hv (Nat.pow_le_pow_right (by decide) (by omega))
  have hfield : (UInt32.ofNat v <<< UInt32.ofNat shift).toNat = v * 2 ^ shift := by
    have hamount : (UInt32.ofNat shift).toNat % 32 = shift := by
      rw [UInt32.toNat_ofNat', Nat.mod_eq_of_lt (by omega : shift < 2 ^ 32),
        Nat.mod_eq_of_lt hshift]
    rw [UInt32.toNat_shiftLeft, hamount, Nat.shiftLeft_eq, UInt32.toNat_ofNat',
      Nat.mod_eq_of_lt hsmall]
    exact Nat.mod_eq_of_lt (Nat.lt_of_lt_of_le hwide hword)
  rw [UInt32.toNat_or, hfield]
  constructor
  · rw [Nat.or_mod_two_pow, Nat.mul_mod_left, Nat.or_zero]
  · rw [← Nat.shiftRight_eq_div_pow, Nat.shiftRight_or_distrib, Nat.shiftRight_eq_div_pow (v * _),
      Nat.div_eq_of_lt hwide, Nat.or_zero, Nat.shiftRight_eq_div_pow]

theorem Code.Fixup.word_around (f : Fixup) (old : UInt32) (d : Int) :
    f.kind.SameAround (f.word old d) old := by
  obtain ⟨kind, position, label⟩ := f
  have hrange : (d % 2 ^ kind.bits).toNat < 2 ^ kind.bits := by
    cases kind <;> simp only [BranchKind.bits] <;> omega
  cases kind with
  | rel32 =>
    have hlt := UInt32.toNat_lt (Fixup.word ⟨.rel32, position, label⟩ old d)
    have hlt' := UInt32.toNat_lt old
    simp only [BranchKind.SameAround, BranchKind.shift, BranchKind.bits]
    omega
  | imm26 =>
    rw [Fixup.word_ored (by simp)]
    exact or_field_around old hrange (show 0 + 26 ≤ 32 by decide) (show 0 < 32 by decide)
  | imm19 =>
    rw [Fixup.word_ored (by simp)]
    exact or_field_around old hrange (show 5 + 19 ≤ 32 by decide) (show 5 < 32 by decide)

-- ---------------------------------------------------------------------------
-- Positions
-- ---------------------------------------------------------------------------

namespace Code

section

variable {I : Type} {chunk : I → Chunk} {steps : List (Step I)} {l : Label} {p q n : Nat}

/-- An open branch is a call that emits one. -/
theorem mem_openBranches {f : Fixup} (h : f ∈ openBranches chunk p steps) :
    ∃ before i after br, steps = before ++ .emit i :: after ∧ (chunk i).branch = some br ∧
      f = ⟨br.kind, p + (emitted chunk before).length + br.offset, br.label⟩ := by
  induction steps generalizing p with
  | nil => cases h
  | cons s rest ih =>
    rcases List.mem_append.mp h with h | h
    · rw [Option.mem_toList, Option.map_eq_some_iff] at h
      obtain ⟨br, hbr, rfl⟩ := h
      cases s with
      | emit i => exact ⟨[], i, rest, br, rfl, hbr, by simp [emitted]⟩
      | _ => cases hbr
    · obtain ⟨before, i, after, br, rfl, hbr, rfl⟩ := ih h
      exact ⟨s :: before, i, after, br, rfl, hbr, by simp [emitted, Nat.add_assoc]⟩

theorem exists_bind (h : boundAt? chunk l p steps = some q) :
    ∃ first rest, steps = first ++ .bind l :: rest ∧ q = p + (emitted chunk first).length := by
  induction steps generalizing p with
  | nil => cases h
  | cons s rest ih =>
    rw [boundAt?] at h
    split at h
    · rename_i hbinds
      obtain rfl := Option.some.inj h
      cases s with
      | bind l' =>
        obtain rfl : l' = l := by simpa [Step.binds] using hbinds
        exact ⟨[], rest, rfl, by simp [emitted]⟩
      | _ => cases hbinds
    · obtain ⟨first, rest', rfl, rfl⟩ := ih h
      exact ⟨s :: first, rest', rfl, by simp [emitted, Nat.add_assoc]⟩

theorem boundAt?_append {first rest : List (Step I)} (h : first.any (Step.binds l) = false) :
    boundAt? chunk l p (first ++ .bind l :: rest) = some (p + (emitted chunk first).length) := by
  induction first generalizing p with
  | nil => simp [boundAt?, Step.binds, emitted]
  | cons s first ih =>
    rw [List.any_cons, Bool.or_eq_false_iff] at h
    simp [boundAt?, h.1, ih h.2, emitted, Nat.add_assoc]

/-- Without an error, a label is bound by one call only. -/
theorem boundAt?_of_bind {first rest : List (Step I)}
    (h : (assemble chunk (first ++ .bind l :: rest)).error = none) :
    boundAt? chunk l 0 (first ++ .bind l :: rest) = some (emitted chunk first).length := by
  rw [assemble_append, List.foldl_cons] at h
  have hbind := (extends_foldl rest _).error h
  have hfirst : (assemble chunk first).error = none := (extends_apply _ (.bind l)).error hbind
  rw [error_apply hfirst, Step.error?] at hbind
  have hany : first.any (Step.binds l) = false := by
    cases hany : first.any (Step.binds l) with
    | false => rfl
    | true =>
      rw [hany] at hbind
      split at hbind <;> cases hbind
  rw [boundAt?_append hany, Nat.zero_add]

theorem dvd_emitted (h : ∀ i, n ∣ (chunk i).bytes.length) (steps : List (Step I)) :
    n ∣ (emitted chunk steps).length := by
  induction steps with
  | nil => simp [emitted]
  | cons s rest ih =>
    have hfirst : n ∣ (s.bytes chunk).length := by
      cases s with
      | emit i => exact h i
      | _ => exact Nat.dvd_zero n
    have happend : emitted chunk (s :: rest) = s.bytes chunk ++ emitted chunk rest :=
      List.flatMap_cons
    rw [happend, List.length_append]
    exact Nat.dvd_add hfirst ih

end

end Code

-- ---------------------------------------------------------------------------
-- Two assemblers
-- ---------------------------------------------------------------------------

theorem X86.kind_branch {i : X86.Instr} {br : Branch} (h : i.chunk.branch = some br) :
    br.kind = .rel32 := by
  cases i with
  | jmp l | jcc cc l =>
    obtain rfl := Option.some.inj h
    rfl
  | load | store | lea | sse | vex | evex => simp [Instr.chunk, Chunk.branch_ofExcept] at h
  | _ => cases h

theorem Arm64.kind_branch {i : Arm64.Instr} {br : Branch} (h : i.chunk.branch = some br) :
    br.kind ≠ .rel32 ∧ br.offset = 0 := by
  cases i with
  | b l | bCond cc l | cbz t l | cbnz t l =>
    obtain rfl := Option.some.inj h
    exact ⟨by simp, rfl⟩
  | _ => cases h

namespace Architecture

open Code (assemble boundAt? emitted firstUnresolved? openBranches read32)

variable {a : Architecture} {steps : List (Step a.Instr)} {code : Array UInt8}

theorem framed_chunk (a : Architecture) (i : a.Instr) : (a.chunk i).Framed :=
  match a with
  | x86 => X86.framed_chunk i
  | arm64 => Arm64.framed_chunk i

theorem orderly (a : Architecture) (steps : List (Step a.Instr)) :
    (assemble a.chunk steps).Orderly :=
  Code.orderly_assemble a.chunk a.framed_chunk steps

theorem words_emitted (steps : List (Step arm64.Instr)) :
    (emitted arm64.chunk steps).length % 4 = 0 := by
  refine Nat.mod_eq_zero_of_dvd (Code.dvd_emitted (fun i => ?_) steps)
  obtain ⟨n, hn⟩ := Arm64.whole_words i
  exact ⟨n, hn⟩

/-- From a branch to its label there is a whole number of units. -/
theorem whole_units {f : Fixup} (hf : f ∈ openBranches a.chunk 0 steps) {q : Nat}
    (hq : boundAt? a.chunk f.label 0 steps = some q) : (f.kind.unit : Int) ∣ q - f.origin := by
  obtain ⟨before, i, after, br, -, hbr, rfl⟩ := Code.mem_openBranches hf
  obtain ⟨first, rest, -, rfl⟩ := Code.exists_bind hq
  cases a with
  | x86 =>
    have hkind : br.kind = .rel32 := X86.kind_branch hbr
    simp only [hkind, BranchKind.unit]
    exact Int.one_dvd _
  | arm64 =>
    obtain ⟨hkind, hoffset⟩ : br.kind ≠ .rel32 ∧ br.offset = 0 := Arm64.kind_branch hbr
    have hbefore := words_emitted before
    have hfirst := words_emitted first
    cases hk : br.kind with
    | rel32 => exact absurd hk hkind
    | imm26 | imm19 =>
      simp only [BranchKind.unit, Fixup.origin, hoffset]
      omega

/-- Every branch of a sequence leads to where its label is bound. -/
theorem branchTarget_eq {before after : List (Step a.Instr)} {i : a.Instr} {br : Branch}
    (hbr : (a.chunk i).branch = some br) {q : Nat}
    (hq : boundAt? a.chunk br.label 0 (before ++ .emit i :: after) = some q)
    (hcode : (assemble a.chunk (before ++ .emit i :: after)).finish = .ok code) :
    a.branchTarget? code.toList (emitted a.chunk before).length = some q := by
  have herror := error_of_finish hcode
  have hlabel : (a.chunk i).branch.map (·.label) = some br.label := by simp [hbr]
  have hposition := (Code.position_assemble herror br.label).trans hq
  have hend := a.orderly (before ++ .emit i :: after)
  have hextends : ((assemble a.chunk before).put (a.chunk i)).Extends
      (assemble a.chunk (before ++ .emit i :: after)) := by
    rw [Code.assemble_append]
    exact Code.extends_foldl after _
  rw [← Code.size_assemble]
  cases a with
  | x86 => exact X86.target_put (x86.orderly before) hlabel hextends hend hcode hposition
  | arm64 =>
    obtain ⟨first, rest, -, rfl⟩ := Code.exists_bind hq
    have hwords : (0 + (emitted arm64.chunk first).length) % 4 =
        (assemble arm64.chunk before).bytes.size % 4 := by
      rw [Code.size_assemble, Nat.zero_add, words_emitted, words_emitted]
    exact (Arm64.branchAt_put (arm64.orderly before) hlabel hextends hend hcode hposition
      hwords).target

/-- Finished code of a sequence of calls. -/
structure Linked (a : Architecture) (steps : List (Step a.Instr)) (code : Array UInt8) : Prop where
  size : code.size = (emitted a.chunk steps).length
  /-- Bytes outside the words of branches are as they were emitted. -/
  kept : ∀ n, (∀ f ∈ openBranches a.chunk 0 steps, ¬ f.Covers n) →
    code[n]? = (emitted a.chunk steps)[n]?
  /-- So are, in the words of branches, the bits around the distance. -/
  around : ∀ f ∈ openBranches a.chunk 0 steps, f.kind.SameAround (read32 code f.position)
    (read32 (emitted a.chunk steps).toArray f.position)
  /-- The label of a branch is bound, and wherever that is, the branch leads there. -/
  targets : ∀ before i after br, steps = before ++ .emit i :: after →
    (a.chunk i).branch = some br → steps.any (Step.binds br.label) ∧
      ∀ first rest, steps = first ++ .bind br.label :: rest →
        a.branchTarget? code.toList (emitted a.chunk before).length =
          some (emitted a.chunk first).length

theorem linked_of_finish (hcode : (assemble a.chunk steps).finish = .ok code) :
    Linked a steps code := by
  obtain ⟨herror, hsize, hkept, hentered⟩ := Buffer.finish_ok (a.orderly steps) hcode
  have hbytes : (assemble a.chunk steps).bytes = (emitted a.chunk steps).toArray := by
    rw [← Code.bytes_assemble]
  rw [Code.fixups_assemble] at hkept hentered
  have hbound : ∀ f ∈ openBranches a.chunk 0 steps,
      ∃ q, boundAt? a.chunk f.label 0 steps = some q := by
    intro f hf
    obtain ⟨q, hq, -⟩ := hentered f hf
    exact ⟨q, (Code.position_assemble herror f.label).symm.trans hq⟩
  constructor
  · rw [hsize, Code.size_assemble]
  · intro n hn
    rw [hkept n hn, hbytes, List.getElem?_toArray]
  · intro f hf
    obtain ⟨q, -, -, hfield⟩ := hentered f hf
    rw [Code.read32_le32 hfield, hbytes]
    exact f.word_around _ _
  · rintro before i after br rfl hbr
    -- The branch is open when everything is emitted, so that finishing has found its label.
    have hopen : (⟨br.kind, (emitted a.chunk before).length + br.offset, br.label⟩ : Fixup) ∈
        openBranches a.chunk 0 (before ++ .emit i :: after) := by
      rw [← Code.fixups_assemble, Code.assemble_append, List.foldl_cons, Code.fixups_foldl]
      simp [Code.fixups_apply, Step.branch?, hbr, Code.size_assemble]
    obtain ⟨q, hq⟩ := hbound _ hopen
    have hany := Code.isSome_boundAt? a.chunk br.label (before ++ .emit i :: after) 0
    rw [hq] at hany
    refine ⟨hany.symm, fun first rest hsplit => ?_⟩
    rw [hsplit] at herror
    have hfirst := Code.boundAt?_of_bind herror
    rw [← hsplit] at hfirst
    exact branchTarget_eq hbr hfirst hcode

/-- Resolving branches is exact. Code that comes out has the length of what was emitted, differs
from it in distances only, and all its branches lead to where their labels are bound. Without an
error of a call, no code comes out just where a branch has a label that is bound nowhere, or a
distance that its field cannot hold, and the first such branch in emission order is the one that is
told. A distance is always a whole number of what its field counts in. -/
theorem finish_links (a : Architecture) (steps : List (Step a.Instr)) :
    (∀ code, (assemble a.chunk steps).finish = .ok code → Linked a steps code) ∧
      ((assemble a.chunk steps).error = none → ∀ e,
        (assemble a.chunk steps).finish = .error e ↔
          firstUnresolved? a.chunk steps = some e) ∧
      ∀ f ∈ openBranches a.chunk 0 steps, ∀ q, boundAt? a.chunk f.label 0 steps = some q →
        (f.kind.unit : Int) ∣ q - f.origin := by
  refine ⟨fun code => linked_of_finish, fun hnone e => ?_, fun f hf q => whole_units hf⟩
  have hfinish := Code.finish_assemble a.chunk steps
  rw [← Code.error_assemble, hnone, Option.none_or] at hfinish
  cases hfirst : firstUnresolved? a.chunk steps with
  | none =>
    rw [hfirst] at hfinish
    obtain ⟨code, hcode⟩ := hfinish
    simp [hcode]
  | some e' =>
    rw [hfirst] at hfinish
    simp [show (assemble a.chunk steps).finish = .error e' from hfinish]

/-- A branch forward of two words and one back over one word. -/
def twoBranches : List (Step arm64.Instr) :=
  [.newLabel, .newLabel, .bind ⟨0⟩, .emit (.bCond .ne ⟨1⟩), .emit (.b ⟨0⟩), .bind ⟨1⟩]

theorem twoBranches_linked :
    Linked arm64 twoBranches #[0x41, 0, 0, 0x54, 0xff, 0xff, 0xff, 0x17] :=
  (finish_links arm64 twoBranches).1 _ rfl

end Architecture

end JitGemm
