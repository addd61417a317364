import JitGemm.Proofs.Generator.Processor

/-!
# What frames preserve

A frame runs as the code before its body, the body, and the code behind it. Whatever the body does
to registers and to the working stack, and whether it ends at its end or with a branch to its exit
point, the caller finds its stack pointer and the registers of its convention as they were.
-/

namespace JitGemm

open Code (Buffer Label)
open X86 (Span Apart)

-- ---------------------------------------------------------------------------
-- The working stack
-- ---------------------------------------------------------------------------

theorem align16_mod (n : Nat) : align16 n % 16 = 0 := by
  unfold align16
  split <;> omega

theorem le_align16 (n : Nat) : n ≤ align16 n := by
  unfold align16
  split <;> omega

/-- Rounding up overflows above the largest multiple of 16 that is a word. -/
theorem StackSize.ofBytes?_eq_none {n : Nat} : ofBytes? n = none ↔ 2 ^ 64 - 16 < n := by
  have hround : align16 n < Size.modulus ↔ n ≤ 2 ^ 64 - 16 := by
    unfold align16 Size.modulus
    split <;> omega
  rw [ofBytes?]
  split <;> simp only [reduceCtorEq, false_iff, true_iff] <;> omega

theorem StackSize.bytes_of_some {n : Nat} {stack : StackSize} (h : ofBytes? n = some stack) :
    stack.bytes = n := by
  rw [ofBytes?] at h
  split at h
  · exact (Option.some.inj h) ▸ rfl
  · cases h

namespace Frame

variable {t : Target} {stack : StackSize}

theorem reserve_ofStack (h : stack.bytes ≠ 0) :
    (ofStack t stack).reserve = align16 stack.bytes + if t.isX86 then 8 else 0 := by
  have hused : t.isX86 → usedX86 t % 16 = 8 := by cases t <;> decide
  unfold ofStack
  rw [if_neg h]
  split
  · rename_i ht
    rw [hused ht]
  · rfl

/-- Together with what a call leaves on the stack, a frame takes up a multiple of 16. -/
theorem reserve_mod (h : stack.bytes ≠ 0) :
    ((ofStack t stack).reserve + t.saveArea) % 16 = t.linkBytes := by
  have hround := align16_mod stack.bytes
  rw [reserve_ofStack h]
  cases t with
  | sysV =>
    show (align16 stack.bytes + 8 + 48) % 16 = 8
    omega
  | win64 =>
    show (align16 stack.bytes + 8 + 224) % 16 = 8
    omega
  | aarch64 =>
    show (align16 stack.bytes + 0 + 160) % 16 = 0
    omega

theorem aligned_below {a b : UInt64} {n k : Nat} (h : a + UInt64.ofNat n = b)
    (hk : n % 16 = k) (height : k = 0 ∨ k = 8) (hb : 16 ∣ b.toNat + k) : 16 ∣ a.toNat := by
  have hsum := congrArg UInt64.toNat h
  rw [UInt64.toNat_add, UInt64.toNat_ofNat'] at hsum
  omega

theorem reserve_lt {f : Frame} (h : f.Encodable) : f.reserve < 2 ^ 31 := by
  have hlimit : f.target.maxReserve < 2 ^ 31 := by cases f.target <;> decide
  exact Nat.lt_of_le_of_lt h hlimit

/-- The working stack has room for what was asked for. -/
theorem le_reserve (t : Target) (stack : StackSize) : stack.bytes ≤ (ofStack t stack).reserve := by
  by_cases hzero : stack.bytes = 0
  · omega
  · rw [reserve_ofStack hzero]
    exact Nat.le_trans (le_align16 _) (Nat.le_add_right _ _)

/-- A multiple of 16 that is a word leaves room for the padding. -/
theorem reserve_lt_word (t : Target) (stack : StackSize) :
    (ofStack t stack).reserve < 2 ^ 64 := by
  by_cases hzero : stack.bytes = 0
  · simp [ofStack, hzero]
  · have hword := stack.word
    have hround := align16_mod stack.bytes
    rw [reserve_ofStack hzero]
    unfold Size.modulus at hword
    split <;> omega

/-- What was asked for lies below what was saved. -/
theorem apart_saved (h : (ofStack t stack).Encodable) (sp : UInt64) :
    Apart (Span sp stack.bytes)
      (Span (sp + UInt64.ofNat (ofStack t stack).reserve) t.saveArea) := by
  have harea : t.saveArea ≤ 256 := by cases t <;> decide
  have hsmall := reserve_lt h
  have hle := le_reserve t stack
  have hapart := X86.span_apart sp (k := 0) (l := (ofStack t stack).reserve) (m := stack.bytes)
    (n := t.saveArea) (by omega) (by omega)
  simpa using hapart

end Frame

-- ---------------------------------------------------------------------------
-- The code around a body
-- ---------------------------------------------------------------------------

theorem Emission.Decodes.no_label {e : Emission} (h : e.Decodes) : e.label? = none := by
  cases e with
  | x86 i => simp [label?, branch_of_decodes h]
  | arm i => exact h.elim
  | fail e => rfl

namespace Frame

theorem no_label_arm {is : List Arm64.Instr} (h : ∀ i ∈ is, i.chunk.branch = none) :
    ∀ e ∈ is.map Emission.arm, e.label? = none := by
  intro e he
  obtain ⟨i, hi, rfl⟩ := List.mem_map.mp he
  simp [Emission.label?, h i hi]

theorem no_label_preamble (f : Frame) (vex : Bool) : ∀ e ∈ f.preamble vex, e.label? = none := by
  rcases f with ⟨t, n⟩
  cases t with
  | sysV | win64 => exact fun e he => (decodes_opening rfl vex e he).no_label
  | aarch64 =>
    show ∀ e ∈ (⟨.aarch64, n⟩ : Frame).preambleArm, _
    rw [preambleArm_eq]
    refine no_label_arm (List.forall_mem_append.mpr ⟨by decide, fun i hi => ?_⟩)
    unfold reserving at hi
    split at hi
    · cases hi
    · obtain rfl := List.mem_singleton.mp hi
      rfl

theorem no_label_postamble (f : Frame) (vex : Bool) : ∀ e ∈ f.postamble vex, e.label? = none := by
  rcases f with ⟨t, n⟩
  cases t with
  | sysV | win64 => exact fun e he => (decodes_closing rfl vex e he).no_label
  | aarch64 =>
    show ∀ e ∈ (⟨.aarch64, n⟩ : Frame).postambleArm, _
    rw [postambleArm_eq]
    refine no_label_arm (List.forall_mem_append.mpr
      ⟨List.forall_mem_append.mpr ⟨fun i hi => ?_, by decide⟩, by decide⟩)
    unfold releasing at hi
    split at hi
    · cases hi
    · obtain rfl := List.mem_singleton.mp hi
      rfl

end Frame

namespace Call

variable {c : Call} {g : Generator} {code : Array UInt8}

theorem opening_in_code (hstart : c.start.buffer.Orderly) (hgrows : c.closed.Grows g)
    (hcode : g.buffer.finish = .ok code) :
    let bytes := blockBytes (c.own.preamble c.start.table.vex)
    ∃ pre post, code.toList = pre ++ bytes ++ post ∧ pre.length = c.start.buffer.bytes.size ∧
      c.opened.buffer.bytes.size = pre.length + bytes.length := by
  intro bytes
  obtain ⟨hbytes, hfixups⟩ :=
    Generator.emit_plain (c.own.no_label_preamble c.start.table.vex) c.start
  have hbody : c.opened.Grows c.ended := (Script.keeps_run _ _).toGrows
  have hrest : c.opened.Grows g := hbody.trans ((grows_closed c).trans hgrows)
  have hend : g.buffer.Orderly :=
    ((grows_ended c).trans ((grows_closed c).trans hgrows)).orderly hstart
  have hopened : c.opened.buffer.bytes.toList = c.start.buffer.bytes.toList ++ bytes := hbytes
  obtain ⟨pre, post, haround, hlength⟩ :=
    Buffer.plain_in_code hstart hopened hfixups hrest.buffer hend hcode
  refine ⟨pre, post, haround, hlength, ?_⟩
  rw [hlength, ← Array.length_toList, hopened, List.length_append, Array.length_toList]

theorem closing_in_code (hstart : c.start.buffer.Orderly) (hlast : c.last = c.own)
    (hgrows : c.closed.Grows g) (hcode : g.buffer.finish = .ok code) :
    ∃ pre post, code.toList = pre ++ blockBytes (c.own.postamble c.start.table.vex) ++ post ∧
      pre.length = c.ended.buffer.bytes.size := by
  let bound : Generator := { c.ended.bind c.exit with exit := c.start.exit }
  obtain ⟨hbytes, hfixups⟩ :=
    Generator.emit_plain (c.own.no_label_postamble c.start.table.vex) bound
  have hclosed : c.closed = bound.emit (c.own.postamble c.start.table.vex) := hlast ▸ c.closed_eq
  have hended := (grows_ended c).orderly hstart
  have hend := ((grows_closed c).trans hgrows).orderly hended
  have hbound : bound.buffer.Orderly := hended.bind c.exit
  rw [← hclosed] at hbytes hfixups
  have hsize : bound.buffer.bytes.size = c.ended.buffer.bytes.size :=
    congrArg Array.size (Buffer.bytes_bind _ _)
  rw [← hsize]
  exact Buffer.plain_in_code hbound hbytes hfixups hgrows.buffer hend hcode

/-- A branch to the exit point leads to the code that closes the frame, wherever it is. -/
theorem branchAt_exit (ar : Arith UInt32) (hstart : c.start.buffer.Orderly)
    (hfree : c.script.FrameFree) (hgrows : c.closed.Grows g) (hcode : g.buffer.finish = .ok code)
    {e : Emission} {next : Script} {p : Generator}
    (h : c.script.Reaches c.opened (.emit e next) p) (hnative : e.native c.start.table.target)
    (hlabel : e.label? = some c.exit) :
    (c.start.table.target.processor ar).BranchAt code.toList p.buffer.bytes.size
      c.ended.buffer.bytes.size (p.emit [e]).buffer.bytes.size := by
  obtain ⟨hkeeps, hrun⟩ := h.keeps
  have hopened : c.start.Grows c.opened := Generator.grows_enterFrame _ _
  have htable : p.table = c.start.table := hkeeps.table.trans hopened.table
  have hp : p.buffer.Orderly := hkeeps.orderly (hopened.orderly hstart)
  have hoffer : p.offer e = p.emit [e] := by simp [Generator.offer, htable, hnative]
  have hnext : next.run (p.emit [e]) = c.ended := hoffer ▸ hrun
  have hrest : (p.emit [e]).Grows g :=
    (hnext ▸ (Script.keeps_run next _).toGrows).trans ((grows_closed c).trans hgrows)
  have hend : g.buffer.Orderly :=
    hrest.orderly ((Generator.keeps_emit p [e]).orderly hp)
  -- the label is bound where the body ends, and keeps its place in all that follows
  have htarget : g.buffer.position? c.exit = some c.ended.buffer.bytes.size :=
    hgrows.buffer.labels _ _ (position_exit (hgrows.buffer.error (error_of_finish hcode)))
  cases e with
  | x86 i =>
    have hx86 : c.start.table.target.processor ar = X86.processor ar := by
      revert hnative
      cases c.start.table.target <;> simp [Emission.native, Target.isX86, Target.processor]
    rw [hx86]
    exact X86.branchAt_put ar hp hlabel hrest.buffer hend hcode htarget
  | arm i =>
    have harm : c.start.table.target = .aarch64 := by
      revert hnative
      cases c.start.table.target <;> simp [Emission.native, Target.isX86]
    -- distances count words, and a body without frames emits whole words
    have hwords : c.ended.buffer.bytes.size % 4 = p.buffer.bytes.size % 4 := by
      have hother : c.opened.table.target.isX86 = false := by rw [hopened.table, harm]; rfl
      have htotal := (Script.reaches_end c.script c.opened).words hother hfree
      exact htotal.1.trans (h.words hother hfree).1.symm
    rw [harm]
    exact Arm64.branchAt_put hp hlabel hrest.buffer hend hcode htarget hwords
  | fail e => cases hlabel

end Call

/-- What a frame does for its caller. Its code saves what the convention preserves and leaves the
stack pointer, if working stack was asked for, at a multiple of 16. The bytes that were asked for
lie apart from what was saved. Every branch to the exit point leads to the code behind the body, and
from there, whatever the body has done but for what it has to spare, control returns to the caller
with all of it restored. -/
theorem frame_preserves (ar : Arith UInt32) {c : Call} {g : Generator} {code : Array UInt8}
    (hstart : c.start.buffer.Orderly) (hfree : c.script.FrameFree) (hfit : c.own.Encodable)
    (hgrows : c.closed.Grows g) (hcode : g.buffer.finish = .ok code) :
    let t := c.own.target
    let P := t.processor ar
    let behind := c.ended.buffer.bytes.size
    t = c.start.table.target ∧
    (∀ e next p, c.script.Reaches c.opened (.emit e next) p → e.native t → e.label? = some c.exit →
      P.BranchAt code.toList p.buffer.bytes.size behind (p.emit [e]).buffer.bytes.size) ∧
    ∀ s : P.State, ∃ u,
      P.Runs code.toList c.start.buffer.bytes.size s c.opened.buffer.bytes.size u ∧
      P.sp u + UInt64.ofNat (c.own.reserve + t.saveArea) = P.sp s ∧
      (c.stack.bytes ≠ 0 → 16 ∣ (P.sp s).toNat + t.linkBytes → 16 ∣ (P.sp u).toNat) ∧
      Apart (Span (P.sp u) c.stack.bytes)
        (Span (P.sp u + UInt64.ofNat c.own.reserve) t.saveArea) ∧
      ∀ v, P.Spares c.own u v →
        ∃ q w, P.Runs code.toList behind v q w ∧
          P.Returns code.toList q w (P.returnAddress s) ∧ P.Restored t s w := by
  intro t P behind
  have htarget : t = c.start.table.target := Frame.target_ofStack _ _
  refine ⟨htarget, fun e next p h hnative hlabel => ?_, fun s => ?_⟩
  · have := Call.branchAt_exit ar hstart hfree hgrows hcode h (htarget ▸ hnative) hlabel
    rwa [← htarget] at this
  · obtain ⟨pre, post, haround, hlength, hbody⟩ := Call.opening_in_code hstart hgrows hcode
    obtain ⟨u, hruns, hu⟩ := Frame.opened ar pre post hfit c.start.table.vex s
    rw [← haround, ← hbody, hlength] at hruns
    refine ⟨u, hruns, hu.sp, fun hstack hs => ?_, ?_, fun v hv => ?_⟩
    · have hmod : (c.own.reserve + t.saveArea) % 16 = t.linkBytes := by
        rw [htarget]
        exact Frame.reserve_mod hstack
      have hlink : t.linkBytes = 0 ∨ t.linkBytes = 8 := by cases t <;> simp [Target.linkBytes]
      exact Frame.aligned_below hu.sp hmod hlink hs
    · rw [htarget]
      exact Frame.apart_saved hfit _
    · obtain ⟨pre, post, haround, hlength⟩ := Call.closing_in_code hstart
        (Script.lastFrame_of_frameFree hfree _ _) hgrows hcode
      obtain ⟨q, w, hruns, hreturns, hrestored⟩ :=
        Frame.closed ar pre post hfit c.start.table.vex hu hv
      rw [← haround] at hruns hreturns
      rw [hlength] at hruns
      exact ⟨q, w, hruns, hreturns, hrestored⟩

def fortyBytes : StackSize := ⟨40, by decide⟩

/-- A frame that leaves its body early where the zero flag is set, and else overwrites `rbx`. -/
def leaving : Call where
  start := { name := "leaving", origin := "", table := ⟨.sysV, .v128, .empty⟩ }
  stack := fortyBytes
  body _ := .exitLabel fun l =>
    .emit (.x86 (.jcc .zero l)) (.emit (.x86 (.xor .rbx .rbx)) .done)

/-- What it comes to: pushes and `sub`, the branch and `xor`, `add`, pops and `ret`. -/
def leavingCode : Array UInt8 :=
  #[0x53, 0x55, 0x41, 0x54, 0x41, 0x55, 0x41, 0x56, 0x41, 0x57, 0x48, 0x83, 0xEC, 0x38,
    0x0F, 0x84, 0x03, 0x00, 0x00, 0x00, 0x48, 0x31, 0xDB,
    0x48, 0x83, 0xC4, 0x38, 0x41, 0x5F, 0x41, 0x5E, 0x41, 0x5D, 0x41, 0x5C, 0x5D, 0x5B, 0xC3]

theorem leaving_preserves :
    leaving.closed.buffer.finish = .ok leavingCode ∧ leaving.own.reserve = 56 ∧
      ∀ ar : Arith UInt32, X86.BranchAt ar leavingCode.toList 14 23 20 ∧
        ∀ s : X86.Machine, ∃ u, X86.Runs ar leavingCode.toList (.at 0 s) (.at 14 u) ∧
          u.gpr .rsp + 104 = s.gpr .rsp ∧
          Apart (Span (u.gpr .rsp) 40) (Span (u.gpr .rsp + 56) 48) ∧
          ∀ v, (X86.processor ar).Spares leaving.own u v →
            ∃ q w, X86.Runs ar leavingCode.toList (.at 23 v) (.at q w) ∧
              (X86.processor ar).Returns leavingCode.toList q w (s.mem.read64 (s.gpr .rsp)) ∧
              w.gpr .rsp = s.gpr .rsp ∧ w.gpr .rbx = s.gpr .rbx := by
  have hcode : leaving.closed.buffer.finish = .ok leavingCode := by rfl
  have hfree : leaving.script.FrameFree := fun _ => trivial
  have hfit : leaving.own.Encodable := (by decide : leaving.own.reserve ≤ 2147483647)
  refine ⟨hcode, by decide, fun ar => ?_⟩
  obtain ⟨-, hbranch, hframe⟩ := frame_preserves ar Code.Buffer.orderly_empty hfree hfit
    (Generator.Keeps.refl _).toGrows hcode
  refine ⟨hbranch _ _ _ (.step rfl (.here _ _)) rfl rfl, fun s => ?_⟩
  obtain ⟨u, hopens, hsp, -, hapart, hcloses⟩ := hframe s
  refine ⟨u, hopens, hsp, hapart, fun v hv => ?_⟩
  obtain ⟨q, w, hruns, hreturns, hrestored⟩ := hcloses v hv
  exact ⟨q, w, hruns, hreturns, hrestored.sp, hrestored.gprs .rbx (by decide)⟩

end JitGemm
