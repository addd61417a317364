import JitGemm.Proofs.Generator.Layout
import JitGemm.Proofs.Tile.Parts
import JitGemm.Proofs.X86.Framing

/-!
# The layout of a tile kernel

A finished kernel for x86-64 is three blocks with two branches between them: from before the step
past it when there are no steps, and from behind the step back to it while steps remain.
-/

namespace JitGemm.Tile

open Code (Buffer)
open X86 (Machine Runs jccBytes)

variable {k : TileKey} {target : Target} {caps : IsaSet}

/-- The table that a kernel is generated from. -/
def table (k : TileKey) (target : Target) (caps : IsaSet) : OpTable := ⟨target, k.vecLen, caps⟩

structure Parts where
  preamble : List Emission
  entry : List Emission
  step : List Emission
  writeBack : List Emission
  postamble : List Emission

namespace Parts

def opening (p : Parts) : List Emission := p.preamble ++ p.entry ++ [.x86 (.test .r8 .r8)]

def round (p : Parts) : List Emission := p.step ++ [.x86 (.dec .r8)]

def closing (p : Parts) : List Emission := p.writeBack ++ p.postamble

/-- What the emissions of a kernel leave in its buffer. -/
def assembled (p : Parts) : Buffer :=
  let exit := (p.preamble.foldl Emission.apply {}).newLabel
  let done := (p.entry.foldl Emission.apply exit.2).newLabel
  let top := (Emission.apply (Emission.apply done.2 (.x86 (.test .r8 .r8)))
    (.x86 (.jcc .zero done.1))).newLabel
  let b := p.step.foldl Emission.apply (top.2.bind top.1)
  let b := Emission.apply (Emission.apply b (.x86 (.dec .r8))) (.x86 (.jcc .notZero top.1))
  let b := p.writeBack.foldl Emission.apply (b.bind done.1)
  p.postamble.foldl Emission.apply (b.bind exit.1)

/-- Parts whose emissions record no error. -/
structure Clean (p : Parts) : Prop where
  preamble : ∀ e ∈ p.preamble, e.Clean
  entry : ∀ e ∈ p.entry, e.Clean
  step : ∀ e ∈ p.step, e.Clean
  writeBack : ∀ e ∈ p.writeBack, e.Clean
  postamble : ∀ e ∈ p.postamble, e.Clean

/-- Parts whose bytes are read back. -/
structure Decodes (p : Parts) : Prop where
  preamble : ∀ e ∈ p.preamble, e.Decodes
  entry : ∀ e ∈ p.entry, e.Decodes
  step : ∀ e ∈ p.step, e.Decodes
  writeBack : ∀ e ∈ p.writeBack, e.Decodes
  postamble : ∀ e ∈ p.postamble, e.Decodes

theorem clean_of_assembled {p : Parts} (h : p.assembled.error = none) : p.Clean := by
  simp only [assembled] at h
  obtain ⟨h, hpostamble⟩ := ok_foldl h
  obtain ⟨h, hwriteBack⟩ := ok_foldl (ok_bind h)
  obtain ⟨h, -⟩ := Emission.apply_ok (ok_bind h)
  obtain ⟨h, hstep⟩ := ok_foldl (Emission.apply_ok h).1
  obtain ⟨h, -⟩ := Emission.apply_ok (ok_newLabel (ok_bind h))
  obtain ⟨h, hentry⟩ := ok_foldl (ok_newLabel (Emission.apply_ok h).1)
  obtain ⟨-, hpreamble⟩ := ok_foldl (ok_newLabel h)
  exact ⟨hpreamble, hentry, hstep, hwriteBack, hpostamble⟩

theorem decodes_test : (Emission.x86 (.test .r8 .r8)).Decodes :=
  .integer (by decide : Gpr.r8.num ≤ 15 ∧ Gpr.r8.num ≤ 15)

theorem decodes_dec : (Emission.x86 (.dec .r8)).Decodes :=
  .integer (by decide : Gpr.r8.num ≤ 15)

theorem assembled_eq {p : Parts} (hc : p.Clean) (hd : p.Decodes) :
    let first := blockBytes p.opening
    let second := blockBytes p.round
    p.assembled =
      laid (first ++ openJcc .zero ++ second ++ openJcc .notZero ++ blockBytes p.closing)
        [some (first.length + 6 + second.length + 6 + (blockBytes p.writeBack).length),
          some (first.length + 6 + second.length + 6), some (first.length + 6)]
        [⟨.rel32, first.length + 2, ⟨1⟩⟩, ⟨.rel32, first.length + 6 + second.length + 2, ⟨2⟩⟩] := by
  have hempty : ({} : Buffer) = laid [] [] [] := rfl
  have htest : (Emission.x86 (.test .r8 .r8)).Clean := rfl
  have hdec : (Emission.x86 (.dec .r8)).Clean := rfl
  simp only [assembled, hempty, emit_laid hc.preamble hd.preamble, newLabel_laid,
    emit_laid hc.entry hd.entry, apply_laid htest decodes_test, jcc_laid, List.nil_append,
    List.cons_append, List.length_cons, List.length_nil]
  rw [bind_laid rfl, emit_laid hc.step hd.step, apply_laid hdec decodes_dec, jcc_laid,
    bind_laid rfl, emit_laid hc.writeBack hd.writeBack, bind_laid rfl,
    emit_laid hc.postamble hd.postamble]
  have hopen : ∀ cc, (openJcc cc).length = 6 := fun _ => rfl
  simp [opening, round, closing, hopen, Nat.add_assoc]

/-- The finished code of a kernel: its three blocks, and the distances of its two branches. -/
structure Finished (p : Parts) (code : List UInt8) (forward back : Int32) : Prop where
  code : code = blockBytes p.opening ++ jccBytes .zero forward ++ blockBytes p.round ++
    jccBytes .notZero back ++ blockBytes p.closing
  forward : ((blockBytes p.opening).length + 6 : Nat) + forward.toInt =
    ((blockBytes p.opening).length + 6 + (blockBytes p.round).length + 6 : Nat)
  back : ((blockBytes p.opening).length + 6 + (blockBytes p.round).length + 6 : Nat) + back.toInt =
    ((blockBytes p.opening).length + 6 : Nat)

theorem finished {p : Parts} (hc : p.Clean) (hd : p.Decodes) {code : Array UInt8}
    (h : p.assembled.finish = .ok code) : ∃ forward back, p.Finished code.toList forward back := by
  rw [assembled_eq hc hd] at h
  obtain ⟨mid, hmid, h⟩ := Buffer.resolve_cons h
  obtain ⟨out, hout, h⟩ := Buffer.resolve_cons h
  obtain rfl := Except.ok.inj h
  simp only [laid, List.append_assoc] at hmid hout
  simp only [← List.append_assoc (blockBytes p.opening)] at hmid
  obtain ⟨forward, rfl, hforward⟩ := resolve_jcc rfl hmid
  -- the second branch lies behind the first one and the step
  let pre := blockBytes p.opening ++ jccBytes .zero forward ++ blockBytes p.round
  have hpre : (blockBytes p.opening).length + 6 + (blockBytes p.round).length = pre.length := by
    simp [pre, X86.length_jccBytes, Nat.add_assoc]
  have hbytes : blockBytes p.opening ++ jccBytes .zero forward ++ (blockBytes p.round ++
      (openJcc .notZero ++ blockBytes p.closing)) =
        pre ++ openJcc .notZero ++ blockBytes p.closing := by
    simp [pre]
  rw [hpre, hbytes] at hout
  obtain ⟨back, rfl, hback⟩ := resolve_jcc rfl hout
  refine ⟨forward, back, rfl, hforward, ?_⟩
  rw [hpre]
  exact hback

-- ---------------------------------------------------------------------------
-- Running the parts
-- ---------------------------------------------------------------------------

/-- Where the loop begins, behind the branch that passes it. -/
def top (p : Parts) : Nat := (blockBytes p.opening).length + 6

/-- Where the code goes on once no step remains. -/
def behind (p : Parts) : Nat := p.top + (blockBytes p.round).length + 6

section

variable {ar : Arith UInt32} {p : Parts} {code : List UInt8} {forward back : Int32}

/-- Everything up to the loop, or past it when there is nothing to do. -/
theorem runs_opening (hd : p.Decodes) (hf : p.Finished code forward back) {s u : Machine}
    (h : s.block ar p.opening = some u) :
    Runs ar code (.at 0 s) (.at (if u.zf then p.behind else p.top) u) := by
  have hdecodes : ∀ e ∈ p.opening, e.Decodes := by
    intro e he
    simp only [opening, List.mem_append, List.mem_singleton] at he
    rcases he with (he | he) | rfl
    · exact hd.preamble e he
    · exact hd.entry e he
    · exact decodes_test
  have hblock := X86.runs_block [] (jccBytes .zero forward ++ blockBytes p.round ++
    jccBytes .notZero back ++ blockBytes p.closing) hdecodes h
  have hbranch := X86.step_jz ar (blockBytes p.opening)
    (blockBytes p.round ++ jccBytes .notZero back ++ blockBytes p.closing) hf.forward u
  simp only [List.nil_append, List.length_nil, Nat.zero_add, ← List.append_assoc] at hblock hbranch
  rw [hf.code]
  exact hblock.trans ar (.step hbranch (.refl _))

theorem runs_round (hd : p.Decodes) (hf : p.Finished code forward back) {s u : Machine}
    (h : s.block ar p.round = some u) :
    Runs ar code (.at p.top s) (.at (if u.zf then p.behind else p.top) u) := by
  have hdecodes : ∀ e ∈ p.round, e.Decodes := by
    intro e he
    simp only [round, List.mem_append, List.mem_singleton] at he
    rcases he with he | rfl
    · exact hd.step e he
    · exact decodes_dec
  let pre := blockBytes p.opening ++ jccBytes .zero forward
  have hpre : pre.length = p.top := by simp [pre, top, X86.length_jccBytes]
  have hround : (pre ++ blockBytes p.round).length = p.top + (blockBytes p.round).length := by
    rw [List.length_append, hpre]
  have hblock := X86.runs_block pre (jccBytes .notZero back ++ blockBytes p.closing) hdecodes h
  have hback : ((pre ++ blockBytes p.round).length + 6 : Nat) + back.toInt = p.top := by
    rw [hround]
    exact hf.back
  have hbranch := X86.step_jnz ar (pre ++ blockBytes p.round) (blockBytes p.closing) hback u
  rw [hround] at hbranch
  rw [hpre, ← List.append_assoc] at hblock
  rw [hf.code]
  exact hblock.trans ar (.step hbranch (.refl _))

theorem runs_closing (hd : p.Decodes) (hf : p.Finished code forward back) {es : List Emission}
    (hes : p.closing = es ++ [.x86 .ret]) {s u : Machine} (h : s.block ar es = some u) :
    Runs ar code (.at p.behind s)
      (.left (u.mem.read64 (u.gpr .rsp)) (u.setGpr .rsp (u.gpr .rsp + 8))) := by
  have hdecodes : ∀ e ∈ es, e.Decodes := by
    intro e he
    have hmem : e ∈ p.closing := by
      rw [hes]
      exact List.mem_append_left _ he
    exact (List.mem_append.mp hmem).elim (hd.writeBack e) (hd.postamble e)
  let pre := blockBytes p.opening ++ jccBytes .zero forward ++ blockBytes p.round ++
    jccBytes .notZero back
  have hpre : pre.length = p.behind := by
    simp [pre, behind, top, X86.length_jccBytes, Nat.add_assoc]
  have hblock := X86.runs_block pre X86.Instr.ret.chunk.bytes hdecodes h
  have hret := X86.step_ret ar (pre ++ blockBytes es) [] u
  rw [hpre] at hblock
  rw [List.length_append, hpre, List.append_nil] at hret
  have hcode : code = pre ++ blockBytes es ++ X86.Instr.ret.chunk.bytes := by
    rw [hf.code, hes, blockBytes_append, List.append_assoc pre]
    simp [pre, Emission.bytes]
  rw [hcode]
  exact hblock.trans ar (.step hret (.refl _))

end

end Parts

def parts (t : OpTable) (k : TileKey) (args : Gpr) : Parts where
  preamble := (⟨t.target, 0⟩ : Frame).preambleX86 t.vex
  entry := entry t k .x86 args
  step := step t k .x86
  writeBack := writeBack t k .x86
  postamble := (⟨t.target, 0⟩ : Frame).postambleX86 t.vex

theorem generator_buffer (ht : target.isX86) {args : Gpr}
    (hargs : target.params.head? = some args) :
    (generator k target caps).buffer = (parts (table k target caps) k args).assembled := by
  have hframe : Frame.ofStack target .zero = ⟨target, 0⟩ := rfl
  simp only [generator, Generator.withFrame, Generator.enterFrame, Generator.preamble, hframe, body,
    hargs, Generator.emit, Generator.newLabel, Generator.bind, Generator.scalar, Target.scalar, ht,
    ↓reduceIte, regs_x86 ht, Generator.leaveFrame, Generator.postamble, Frame.preamble,
    Frame.postamble]
  rfl

theorem parts_decodes (ar : Arith UInt32) {t : OpTable} (ht : t.target.isX86) {args : Gpr}
    (hc : (parts t k args).Clean) : (parts t k args).Decodes where
  preamble := Frame.decodes_preamble ht t.vex
  entry := (does_entry ar ht hc.entry).decodes
  step := (does_step ar ht hc.step).decodes
  writeBack := (does_writeBack ar ht hc.writeBack).decodes
  postamble := Frame.decodes_postamble ht t.vex

/-- The code that generation ends with. -/
theorem generated (ar : Arith UInt32) (ht : target.isX86) {args : Gpr}
    (hargs : target.params.head? = some args)
    {p : KernelPolicy} {j : Journal} {kernel : TileKernel}
    (h : (k.generate target caps p j).1 = .ok kernel) :
    let ps := parts (table k target caps) k args
    ps.Clean ∧ ∃ forward back, ps.Finished kernel.code.code.toList forward back := by
  intro ps
  have hfinish : (generator k target caps).finish p.capacity = .ok kernel.code := by
    unfold TileKey.generate at h
    cases hresult : ((generator k target caps).publish p j).1 with
    | error e => simp [hresult, Except.map] at h
    | ok code =>
      simp only [hresult, Except.map, Except.ok.injEq] at h
      rw [← h]
      exact Generator.publish_ok hresult
  have hcode := Generator.finish_ok hfinish
  rw [generator_buffer ht hargs] at hcode
  have hclean := Parts.clean_of_assembled (error_of_finish hcode)
  exact ⟨hclean, Parts.finished hclean (parts_decodes ar ht hclean) hcode⟩

end JitGemm.Tile
