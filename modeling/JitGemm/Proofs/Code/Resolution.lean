import JitGemm.Proofs.Code.Growth
import Mathlib.Algebra.Group.Int.Defs
import Mathlib.Algebra.Group.Nat.Defs

/-!
# Finished code

Finishing a buffer enters a distance into the field of every branch. All other bytes stay as they
were emitted.
-/

namespace JitGemm.Code

-- ---------------------------------------------------------------------------
-- Words
-- ---------------------------------------------------------------------------

theorem getLsbD_byte (w : BitVec 32) {k i : Nat} (hi : i < 32) :
    (((w >>> k).setWidth 8).setWidth 32 <<< k).getLsbD i =
      (decide (k ≤ i ∧ i < k + 8) && w.getLsbD i) := by
  by_cases h : k ≤ i
  · have hcut : i - k < 8 ↔ i < k + 8 := by omega
    have hwide : i - k < 32 := by omega
    simp only [BitVec.getLsbD_setWidth, BitVec.getLsbD_shiftLeft, BitVec.getLsbD_ushiftRight, hi,
      Nat.add_sub_cancel' h]
    simp [h, hcut, hwide]
  · have hlow : i < k := by omega
    simp [h, hlow]

@[simp] theorem word32_le32 (w : UInt32) :
    word32 w.toUInt8 (w >>> 8).toUInt8 (w >>> 16).toUInt8 (w >>> 24).toUInt8 = w := by
  have hbits : (word32 w.toUInt8 (w >>> 8).toUInt8 (w >>> 16).toUInt8 (w >>> 24).toUInt8).toBitVec =
      (w.toBitVec.setWidth 8).setWidth 32 ||| ((w.toBitVec >>> 8).setWidth 8).setWidth 32 <<< 8 |||
        ((w.toBitVec >>> 16).setWidth 8).setWidth 32 <<< 16 |||
        ((w.toBitVec >>> 24).setWidth 8).setWidth 32 <<< 24 := rfl
  apply UInt32.toBitVec_inj.mp
  rw [hbits]
  apply BitVec.eq_of_getLsbD_eq
  intro i hi
  have hlow := getLsbD_byte w.toBitVec (k := 0) hi
  simp only [BitVec.ushiftRight_zero, BitVec.shiftLeft_zero] at hlow
  simp only [BitVec.getLsbD_or, hlow, getLsbD_byte _ hi]
  cases w.toBitVec.getLsbD i with
  | false => simp
  | true =>
    -- every bit lies in one of the four bytes
    simp only [Bool.and_true, Bool.or_eq_true, decide_eq_true_eq]
    omega

theorem getElem?_write (bytes : Array UInt8) (position : Nat) (bs : List UInt8) (i : Nat) :
    (write bytes position bs)[i]? =
      if position ≤ i ∧ i < position + bs.length ∧ i < bytes.size then bs[i - position]?
      else bytes[i]? := by
  induction bs generalizing bytes position with
  | nil =>
    have hnone : ¬ (position ≤ i ∧ i < position + ([] : List UInt8).length ∧ i < bytes.size) := by
      simp only [List.length_nil]
      omega
    rw [if_neg hnone, write]
  | cons b bs ih =>
    rw [write, ih, Array.size_setIfInBounds, Array.getElem?_setIfInBounds, List.length_cons]
    by_cases hfirst : i = position
    · subst hfirst
      have hlate : ¬ i + 1 ≤ i := Nat.not_succ_le_self i
      by_cases hsize : i < bytes.size <;> simp [hsize, hlate]
    · by_cases hin : position ≤ i ∧ i < position + (bs.length + 1) ∧ i < bytes.size
      · have hin' : position + 1 ≤ i ∧ i < position + 1 + bs.length ∧ i < bytes.size := by omega
        have hindex : i - position = i - (position + 1) + 1 := by omega
        rw [if_pos hin, if_pos hin', hindex, List.getElem?_cons_succ]
      · have hin' : ¬ (position + 1 ≤ i ∧ i < position + 1 + bs.length ∧ i < bytes.size) := by
          omega
        rw [if_neg hin, if_neg hin', if_neg (Ne.symm hfirst)]

theorem read32_congr {bytes bytes' : Array UInt8} {p q : Nat}
    (h : ∀ k < 4, bytes'[q + k]? = bytes[p + k]?) : read32 bytes' q = read32 bytes p := by
  have hbyte : ∀ k < 4, bytes'.getD (q + k) 0 = bytes.getD (p + k) 0 := by
    intro k hk
    rw [Array.getD_eq_getD_getElem?, Array.getD_eq_getD_getElem?, h k hk]
  unfold read32
  rw [hbyte 1 (by decide), hbyte 2 (by decide), hbyte 3 (by decide)]
  exact congrArg (word32 · _ _ _) (hbyte 0 (by decide))

theorem read32_le32 {bytes : Array UInt8} {p : Nat} {w : UInt32}
    (h : ∀ k < 4, bytes[p + k]? = (le32 w)[k]?) : read32 bytes p = w := by
  have hsame : read32 bytes p = read32 (le32 w).toArray 0 := by
    refine read32_congr fun k hk => ?_
    rw [h k hk, Nat.zero_add, List.getElem?_toArray]
  exact hsame.trans (word32_le32 w)

theorem exists_around {l bs : List UInt8} {p : Nat} (hp : p ≤ l.length)
    (h : ∀ k < bs.length, l[p + k]? = bs[k]?) :
    ∃ pre post, l = pre ++ bs ++ post ∧ pre.length = p := by
  have hdrop : l.drop p = bs ++ l.drop (p + bs.length) := by
    refine List.ext_getElem? fun k => ?_
    rw [List.getElem?_drop]
    by_cases hk : k < bs.length
    · rw [h k hk, List.getElem?_append_left hk]
    · rw [List.getElem?_append_right (Nat.not_lt.mp hk), List.getElem?_drop]
      congr 1
      omega
  refine ⟨l.take p, l.drop (p + bs.length), ?_, List.length_take_of_le hp⟩
  rw [List.append_assoc, ← hdrop, List.take_append_drop]

-- ---------------------------------------------------------------------------
-- Fields
-- ---------------------------------------------------------------------------

theorem toUInt32_ofInt (n : Int) :
    UInt32.ofNat (n % 2 ^ 32).toNat = (Int32.ofInt n).toUInt32 := by
  apply UInt32.toBitVec_inj.mp
  apply BitVec.eq_of_toNat_eq
  have hrange : (n % 2 ^ 32).toNat < 2 ^ 32 := by omega
  have hbits : (Int32.ofInt n).toUInt32.toBitVec = BitVec.ofInt 32 n := rfl
  rw [hbits, BitVec.toNat_ofInt, UInt32.toBitVec_ofNat', BitVec.toNat_ofNat]
  simpa using Nat.mod_eq_of_lt hrange

theorem cast_one_shiftLeft (n : Nat) : ((1 <<< n : Nat) : Int) = 2 ^ n := by
  rw [Nat.one_shiftLeft]
  exact Int.natCast_pow 2 n

namespace Fixup

/-- Whether byte `i` belongs to the field of a branch. -/
def Covers (f : Fixup) (i : Nat) : Prop := f.position ≤ i ∧ i < f.position + 4

/-- A branch reaches what a signed number of its width can say. -/
theorem reaches_iff {f : Fixup} {target : Nat} :
    f.reaches target ↔
      -2 ^ (f.kind.bits - 1) ≤ f.distance target ∧ f.distance target < 2 ^ (f.kind.bits - 1) := by
  simp only [reaches, cast_one_shiftLeft, Bool.and_eq_true, decide_eq_true_eq]
  exact And.comm

theorem word_rel32 {f : Fixup} (h : f.kind = .rel32) (old : UInt32) (d : Int) :
    f.word old d = (Int32.ofInt d).toUInt32 := by
  simp only [word, h, cast_one_shiftLeft]
  exact toUInt32_ofInt d

theorem word_ored {f : Fixup} (h : f.kind ≠ .rel32) (old : UInt32) (d : Int) :
    f.word old d =
      old ||| UInt32.ofNat (d % 2 ^ f.kind.bits).toNat <<< UInt32.ofNat f.kind.shift := by
  obtain ⟨kind, position, label⟩ := f
  cases kind with
  | rel32 => exact absurd rfl h
  | imm26 | imm19 => simp only [word, cast_one_shiftLeft]

end Fixup

namespace Buffer

variable {b : Buffer}

/-- The field of a branch holds what leads to its label. -/
def Entered (b : Buffer) (bytes out : Array UInt8) (f : Fixup) : Prop :=
  ∃ target, b.position? f.label = some target ∧ f.reaches target ∧
    ∀ k < 4, out[f.position + k]? =
      (le32 (f.word (read32 bytes f.position) (f.distance target)))[k]?

theorem resolve_ok {bytes out : Array UInt8} {f : Fixup} (h : b.resolve bytes f = .ok out)
    (hf : f.position + 4 ≤ bytes.size) :
    out.size = bytes.size ∧ (∀ i, ¬ f.Covers i → out[i]? = bytes[i]?) ∧
      b.Entered bytes out f := by
  unfold resolve at h
  split at h
  · cases h
  · rename_i target htarget
    split at h
    · rename_i hreaches
      obtain rfl := Except.ok.inj h
      refine ⟨size_write _ _ _, fun i hi => ?_, target, htarget, hreaches, fun k hk => ?_⟩
      · rw [Fixup.patch, getElem?_write, length_le32, if_neg]
        exact fun hin => hi ⟨hin.1, hin.2.1⟩
      · rw [Fixup.patch, getElem?_write, length_le32, if_pos (by omega), Nat.add_sub_cancel_left]
    · cases h

theorem resolve_cons {bytes out : Array UInt8} {f : Fixup} {fs : List Fixup}
    (h : (f :: fs).foldlM b.resolve bytes = .ok out) :
    ∃ mid, b.resolve bytes f = .ok mid ∧ fs.foldlM b.resolve mid = .ok out := by
  rw [List.foldlM_cons] at h
  cases hmid : b.resolve bytes f with
  | error e => simp [hmid, Bind.bind, Except.bind] at h
  | ok mid => exact ⟨mid, rfl, by simpa [hmid, Bind.bind, Except.bind] using h⟩

/-- Resolving one branch after the other, each behind those before it. -/
theorem resolve_all {fs : List Fixup} {bytes out : Array UInt8}
    (h : fs.foldlM b.resolve bytes = .ok out)
    (hinside : ∀ f ∈ fs, f.position + 4 ≤ bytes.size)
    (hapart : fs.Pairwise fun f g => f.position + 4 ≤ g.position) :
    out.size = bytes.size ∧ (∀ i, (∀ f ∈ fs, ¬ f.Covers i) → out[i]? = bytes[i]?) ∧
      ∀ f ∈ fs, b.Entered bytes out f := by
  induction fs generalizing bytes with
  | nil =>
    obtain rfl := Except.ok.inj h
    exact ⟨rfl, fun _ _ => rfl, by simp⟩
  | cons f fs ih =>
    obtain ⟨mid, hmid, hrest⟩ := resolve_cons h
    rw [List.pairwise_cons] at hapart
    obtain ⟨hsize, hkept, hentered⟩ := resolve_ok hmid (hinside f List.mem_cons_self)
    obtain ⟨hsize', hkept', hentered'⟩ := ih hrest
      (fun g hg => hsize ▸ hinside g (List.mem_cons_of_mem _ hg)) hapart.2
    refine ⟨hsize'.trans hsize, fun i hi => ?_, fun g hg => ?_⟩
    · rw [hkept' i fun g hg => hi g (List.mem_cons_of_mem _ hg),
        hkept i (hi f List.mem_cons_self)]
    · rcases List.mem_cons.mp hg with rfl | hg
      · obtain ⟨target, htarget, hreaches, hfield⟩ := hentered
        refine ⟨target, htarget, hreaches, fun k hk => ?_⟩
        -- the branches resolved later lie behind this field
        rw [hkept' _ fun f' hf' => ?_, hfield k hk]
        have := hapart.1 f' hf'
        unfold Fixup.Covers
        omega
      · -- the field has not been written before
        have hold : read32 mid g.position = read32 bytes g.position := by
          refine read32_congr fun k hk => hkept _ ?_
          have := hapart.1 g hg
          unfold Fixup.Covers
          omega
        obtain ⟨target, htarget, hreaches, hfield⟩ := hentered' g hg
        exact ⟨target, htarget, hreaches, by rwa [hold] at hfield⟩

/-- What finishing leaves: as many bytes as were emitted, unchanged but for the fields of branches,
and in each field what leads to the label. -/
theorem finish_ok (hb : b.Orderly) {code : Array UInt8} (h : b.finish = .ok code) :
    b.error = none ∧ code.size = b.bytes.size ∧
      (∀ i, (∀ f ∈ b.fixups.toList, ¬ f.Covers i) → code[i]? = b.bytes[i]?) ∧
      ∀ f ∈ b.fixups.toList, b.Entered b.bytes code f := by
  unfold finish at h
  split at h
  · cases h
  · rename_i hnone
    exact ⟨hnone, resolve_all h hb.inside hb.apart⟩

-- ---------------------------------------------------------------------------
-- Code at a point of the emission
-- ---------------------------------------------------------------------------

section

variable {b₀ b₁ : Buffer} {code : Array UInt8}

theorem getElem?_extends (h : b₁.Extends b) {i : Nat} (hi : i < b₁.bytes.size) :
    b.bytes[i]? = b₁.bytes[i]? := by
  obtain ⟨more, hmore⟩ := h.bytes
  have hi' : i < b₁.bytes.toList.length := by simpa using hi
  rw [← Array.getElem?_toList, ← Array.getElem?_toList, hmore, List.getElem?_append_left hi']

theorem getElem?_emitted {new : List UInt8} (hnew : b₁.bytes.toList = b₀.bytes.toList ++ new)
    (h : b₁.Extends b) {k : Nat} (hk : k < new.length) :
    b.bytes[b₀.bytes.size + k]? = new[k]? := by
  have hgrown : b₁.bytes.size = b₀.bytes.size + new.length := by
    simp [← Array.length_toList, hnew]
  have hbehind : b₀.bytes.toList.length ≤ b₀.bytes.size + k := by simp
  rw [getElem?_extends h (by omega), ← Array.getElem?_toList, hnew,
    List.getElem?_append_right hbehind, Array.length_toList, Nat.add_sub_cancel_left]

/-- Only branches that were emitted with some code have their fields in it. -/
theorem mem_of_covers (h₀ : b₀.Orderly) {new : List Fixup}
    (hnew : b₁.fixups.toList = b₀.fixups.toList ++ new) (h : b₁.Extends b) {i : Nat}
    (hlow : b₀.bytes.size ≤ i) (hhigh : i < b₁.bytes.size) {f : Fixup}
    (hf : f ∈ b.fixups.toList) (hcovers : f.Covers i) : f ∈ new := by
  obtain ⟨more, hmore, hlate⟩ := h.fixups
  obtain ⟨hstart, hend⟩ := hcovers
  rw [hmore, hnew, List.append_assoc] at hf
  rcases List.mem_append.mp hf with hbefore | hf
  · have := h₀.inside f hbefore
    omega
  · rcases List.mem_append.mp hf with hf | hbehind
    · exact hf
    · have := hlate f hbehind
      omega

/-- What is emitted without a branch stands in the finished code as it was emitted. -/
theorem plain_in_code (h₀ : b₀.Orderly) {new : List UInt8}
    (hnew : b₁.bytes.toList = b₀.bytes.toList ++ new) (hfixups : b₁.fixups = b₀.fixups)
    (h : b₁.Extends b) (hb : b.Orderly) (hcode : b.finish = .ok code) :
    ∃ pre post, code.toList = pre ++ new ++ post ∧ pre.length = b₀.bytes.size := by
  obtain ⟨-, hsize, hkept, -⟩ := finish_ok hb hcode
  have hgrown : b₁.bytes.size = b₀.bytes.size + new.length := by
    simp [← Array.length_toList, hnew]
  have hle := h.size_le
  refine exists_around (by rw [Array.length_toList]; omega) fun k hk => ?_
  have hclear : ∀ f ∈ b.fixups.toList, ¬ f.Covers (b₀.bytes.size + k) := fun f hf hcovers =>
    List.not_mem_nil (mem_of_covers h₀ (by simp [hfixups]) h (Nat.le_add_right _ _) (by omega) hf
      hcovers)
  rw [Array.getElem?_toList, hkept _ hclear, getElem?_emitted hnew h hk]

/-- A branch stands in the finished code with the distance to its label entered. -/
theorem branch_in_code (h₀ : b₀.Orderly) {c : Chunk} {head : List UInt8} {w : UInt32}
    {kind : BranchKind} {l : Label} (hbytes : c.bytes = head ++ le32 w)
    (hbranch : c.branch = some ⟨kind, head.length, l⟩) (h : (b₀.put c).Extends b) (hb : b.Orderly)
    (hcode : b.finish = .ok code) :
    let f : Fixup := ⟨kind, b₀.bytes.size + head.length, l⟩
    ∃ target pre post, b.position? l = some target ∧ f.reaches target ∧
      code.toList = pre ++ (head ++ le32 (f.word w (f.distance target))) ++ post ∧
      pre.length = b₀.bytes.size := by
  intro f
  obtain ⟨-, hsize, hkept, hentered⟩ := finish_ok hb hcode
  have hfixups : (b₀.put c).fixups.toList = b₀.fixups.toList ++ [f] := by
    simp [Buffer.put, hbranch, f]
  have hlength : (head ++ le32 w).length = head.length + 4 := by simp
  have hgrown : (b₀.put c).bytes.size = b₀.bytes.size + (head.length + 4) := by
    rw [size_put, hbytes, hlength]
  have hput : ∀ k, k < head.length + 4 →
      b.bytes[b₀.bytes.size + k]? = (head ++ le32 w)[k]? := fun k hk =>
    getElem?_emitted (hbytes ▸ bytes_put b₀ c) h (hlength ▸ hk)
  have hold : read32 b.bytes f.position = w := by
    refine read32_le32 fun k hk => ?_
    have hplace : f.position + k = b₀.bytes.size + (head.length + k) := Nat.add_assoc _ _ _
    rw [hplace, hput _ (by omega), List.getElem?_append_right (Nat.le_add_right _ _),
      Nat.add_sub_cancel_left]
  have hmem : f ∈ b.fixups.toList := by
    obtain ⟨more, hmore, -⟩ := h.fixups
    simp [hmore, hfixups]
  obtain ⟨target, htarget, hreaches, hfield⟩ := hentered f hmem
  rw [hold] at hfield
  have hle := h.size_le
  have haround : ∃ pre post,
      code.toList = pre ++ (head ++ le32 (f.word w (f.distance target))) ++ post ∧
        pre.length = b₀.bytes.size := by
    refine exists_around (by rw [Array.length_toList]; omega) fun k hk => ?_
    rw [List.length_append, length_le32] at hk
    rw [Array.getElem?_toList]
    -- the head is as it was emitted, and the field behind it holds the distance
    by_cases hlow : k < head.length
    · have hclear : ∀ g ∈ b.fixups.toList, ¬ g.Covers (b₀.bytes.size + k) := by
        intro g hg hcovers
        obtain rfl := List.mem_singleton.mp
          (mem_of_covers h₀ hfixups h (Nat.le_add_right _ _) (by omega) hg hcovers)
        have hstart : b₀.bytes.size + head.length ≤ b₀.bytes.size + k := hcovers.1
        omega
      rw [hkept _ hclear, hput k hk, List.getElem?_append_left hlow,
        List.getElem?_append_left hlow]
    · have hfield' := hfield (k - head.length) (by omega)
      have hplace : f.position + (k - head.length) = b₀.bytes.size + k := by
        simp only [f]
        omega
      rw [List.getElem?_append_right (Nat.not_lt.mp hlow), ← hfield', hplace]
  obtain ⟨pre, post, haround, hlength⟩ := haround
  exact ⟨target, pre, post, htarget, hreaches, haround, hlength⟩

end

end Buffer

end JitGemm.Code
