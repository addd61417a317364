import JitGemm.Generator.Kernel
import JitGemm.Proofs.Code.Resolution
import JitGemm.Proofs.X86.Lowering

/-!
# The layout of generated code

While no error is pending, a buffer is the bytes, the bound labels and the open branches that its
emissions left, in order. Finishing it puts into each branch the distance to its label.
-/

namespace JitGemm

open Code (Buffer Fixup Label le32)
open X86 (Cond jccBytes)

-- ---------------------------------------------------------------------------
-- No error is lost
-- ---------------------------------------------------------------------------

theorem Emission.apply_ok {b : Buffer} {e : Emission} (h : (e.apply b).error = none) :
    b.error = none ∧ e.Clean := by
  cases e with
  | x86 i => simpa [apply, Buffer.put, Clean] using h
  | arm i => simpa [apply, Buffer.put, Clean] using h
  | fail e => simp [apply, Buffer.fail] at h

theorem ok_foldl {es : List Emission} {b : Buffer}
    (h : (es.foldl Emission.apply b).error = none) : b.error = none ∧ ∀ e ∈ es, e.Clean := by
  induction es generalizing b with
  | nil => exact ⟨h, by simp⟩
  | cons e es ih =>
    obtain ⟨hb, hclean⟩ := ih h
    obtain ⟨hb, he⟩ := Emission.apply_ok hb
    exact ⟨hb, List.forall_mem_cons.mpr ⟨he, hclean⟩⟩

theorem ok_newLabel {b : Buffer} (h : b.newLabel.2.error = none) : b.error = none := h

theorem ok_bind {b : Buffer} {l : Label} (h : (b.bind l).error = none) : b.error = none := by
  unfold Buffer.bind at h
  split at h
  · exact h
  · simp [Buffer.fail] at h
  · simp [Buffer.fail] at h

-- ---------------------------------------------------------------------------
-- Buffers without error
-- ---------------------------------------------------------------------------

def laid (bytes : List UInt8) (labels : List (Option Nat)) (fixups : List Fixup) : Buffer :=
  { bytes := bytes.toArray, labels := labels.toArray, fixups := fixups.toArray }

def openJcc (cc : Cond) : List UInt8 := [0x0F, 0x80 ||| cc.code] ++ le32 0

section

variable {bytes : List UInt8} {labels : List (Option Nat)} {fixups : List Fixup}

theorem branch_of_decodes {i : X86.Instr} (h : (Emission.x86 i).Decodes) :
    i.chunk.branch = none := by
  have hexcept : ∀ r, (Code.Chunk.ofExcept r).branch = none := fun r => by cases r <;> rfl
  cases i with
  | jmp l => rcases h with h | h | ⟨h, -⟩ <;> cases h
  | jcc cc l => rcases h with h | h | ⟨h, -⟩ <;> cases h
  | load | store | lea | sse | vex | evex => exact hexcept _
  | _ => rfl

theorem apply_laid {e : Emission} (hclean : e.Clean) (hdecodes : e.Decodes) :
    e.apply (laid bytes labels fixups) = laid (bytes ++ e.bytes) labels fixups := by
  cases e with
  | x86 i =>
    have hfault : i.chunk.fault = none := hclean
    simp [Emission.apply, Buffer.put, branch_of_decodes hdecodes, hfault, laid, Emission.bytes]
  | arm i => exact hdecodes.elim
  | fail e => exact hdecodes.elim

theorem emit_laid {es : List Emission} (hclean : ∀ e ∈ es, e.Clean)
    (hdecodes : ∀ e ∈ es, e.Decodes) :
    es.foldl Emission.apply (laid bytes labels fixups) =
      laid (bytes ++ blockBytes es) labels fixups := by
  induction es generalizing bytes with
  | nil => simp
  | cons e es ih =>
    rw [List.foldl_cons, apply_laid (hclean _ List.mem_cons_self) (hdecodes _ List.mem_cons_self),
      ih (fun e he => hclean e (List.mem_cons_of_mem _ he)) fun e he =>
        hdecodes e (List.mem_cons_of_mem _ he)]
    simp

theorem jcc_laid (cc : Cond) (l : Label) :
    Emission.apply (laid bytes labels fixups) (.x86 (.jcc cc l)) =
      laid (bytes ++ openJcc cc) labels (fixups ++ [⟨.rel32, bytes.length + 2, l⟩]) := by
  simp [Emission.apply, Buffer.put, X86.Instr.chunk, X86.branchChunk, laid, openJcc]

theorem newLabel_laid :
    (laid bytes labels fixups).newLabel =
      (⟨labels.length⟩, laid bytes (labels ++ [none]) fixups) := by
  simp [Buffer.newLabel, laid]

theorem bind_laid {l : Label} (h : labels[l.id]? = some none) :
    (laid bytes labels fixups).bind l =
      laid bytes (labels.set l.id (some bytes.length)) fixups := by
  simp [Buffer.bind, laid, h]

end

-- ---------------------------------------------------------------------------
-- Entering distances
-- ---------------------------------------------------------------------------

theorem write_middle (pre old new post : List UInt8) (h : old.length = new.length) :
    Code.write (pre ++ old ++ post).toArray pre.length new = (pre ++ new ++ post).toArray := by
  induction new generalizing pre old with
  | nil =>
    obtain rfl := List.eq_nil_of_length_eq_zero h
    rfl
  | cons b bs ih =>
    cases old with
    | nil => cases h
    | cons c cs =>
      have hrest := ih (pre ++ [b]) cs (Nat.succ.inj h)
      have hset : (pre ++ c :: cs ++ post).toArray.setIfInBounds pre.length b =
          (pre ++ [b] ++ cs ++ post).toArray := by
        simp
      rw [Code.write, hset]
      simpa using hrest

theorem toInt_ofInt {n : Int} (hlo : -2 ^ 31 ≤ n) (hhi : n < 2 ^ 31) :
    (Int32.ofInt n).toInt = n := by
  have hsize : (Int32.size : Int) = 2 ^ 32 := rfl
  rw [Int32.toInt_ofInt, Int.bmod_eq_of_le] <;> omega

/-- Resolving a branch enters the distance from its end to the label. -/
theorem resolve_jcc {pre post : List UInt8} {cc : Cond} {l : Label} {target : Nat} {b : Buffer}
    (hl : b.position? l = some target) {out : Array UInt8}
    (h : b.resolve (pre ++ openJcc cc ++ post).toArray ⟨.rel32, pre.length + 2, l⟩ = .ok out) :
    ∃ distance : Int32, out = (pre ++ jccBytes cc distance ++ post).toArray ∧
      (pre.length + 6 : Nat) + distance.toInt = target := by
  simp only [Buffer.resolve, hl] at h
  split at h
  · rename_i hreach
    let n : Int := target - (pre.length + 6 : Nat)
    have hn : Fixup.distance ⟨.rel32, pre.length + 2, l⟩ target = n := by
      simp only [Fixup.distance, n]
      omega
    obtain ⟨hlo, hhi⟩ := Fixup.reaches_iff.mp hreach
    rw [hn] at hlo hhi
    refine ⟨Int32.ofInt n, ?_, ?_⟩
    · have hwrite := write_middle (pre ++ [0x0F, 0x80 ||| cc.code]) (le32 0)
        (le32 (Int32.ofInt n).toUInt32) post rfl
      rw [Except.ok.injEq, Fixup.patch, hn, Fixup.word_rel32 rfl] at h
      rw [← h]
      simpa [openJcc, jccBytes] using hwrite
    · rw [toInt_ofInt hlo hhi]
      simp only [n]
      omega
  · cases h

-- ---------------------------------------------------------------------------
-- Finished kernels
-- ---------------------------------------------------------------------------

theorem error_of_finish {b : Buffer} {code : Array UInt8} (h : b.finish = .ok code) :
    b.error = none := by
  unfold Buffer.finish at h
  split at h
  · cases h
  · assumption

/-- A kernel holds what its buffer finished into. -/
theorem Generator.finish_ok {g : Generator} {capacity : Nat} {k : Kernel}
    (h : g.finish capacity = .ok k) : g.buffer.finish = .ok k.code := by
  unfold Generator.finish at h
  split at h
  · cases h
  · rename_i hcode
    split at h
    · cases h
    · split at h
      · cases h
      · obtain rfl := Except.ok.inj h
        exact hcode

theorem Generator.publish_ok {g : Generator} {p : KernelPolicy} {j : Journal} {k : Kernel}
    (h : (g.publish p j).1 = .ok k) : g.finish p.capacity = .ok k := by
  unfold Generator.publish at h
  split at h
  · cases h
  · rename_i hfinish
    rw [hfinish]
    exact h

end JitGemm
