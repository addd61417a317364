import JitGemm.Proofs.Arm64.Machine
import JitGemm.Proofs.Generator.Layout
import JitGemm.Proofs.Generator.Script

/-!
# Branches in finished code

Where the branches of a script lead once their distances are entered. On AArch64 a distance counts
whole words, and nothing but whole words is emitted.
-/

namespace JitGemm

open Code (Buffer Chunk Fixup Label le32)

def Emission.label? : Emission → Option Label
  | x86 i => i.chunk.branch.map (·.label)
  | arm i => i.chunk.branch.map (·.label)
  | fail _ => none

/-- Emissions without branches leave their bytes, and no open branch. -/
theorem Generator.emit_plain {es : List Emission} (h : ∀ e ∈ es, e.label? = none)
    (g : Generator) :
    (g.emit es).buffer.bytes.toList = g.buffer.bytes.toList ++ blockBytes es ∧
      (g.emit es).buffer.fixups = g.buffer.fixups := by
  induction es generalizing g with
  | nil => simp
  | cons e es ih =>
    obtain ⟨he, hes⟩ := List.forall_mem_cons.mp h
    obtain ⟨hbytes, hfixups⟩ := ih hes (g.emit [e])
    have hplain : ∀ c : Chunk, c.branch.map (·.label) = none →
        (g.buffer.put c).fixups = g.buffer.fixups := by
      intro c hc
      simp [Buffer.put, Option.map_eq_none_iff.mp hc]
    have hone : (g.emit [e]).buffer.bytes.toList = g.buffer.bytes.toList ++ e.bytes ∧
        (g.emit [e]).buffer.fixups = g.buffer.fixups := by
      cases e with
      | x86 i => exact ⟨Code.Buffer.bytes_put _ _, hplain _ he⟩
      | arm i => exact ⟨Code.Buffer.bytes_put _ _, hplain _ he⟩
      | fail e => exact ⟨by simp [Generator.emit, Emission.apply, Emission.bytes], rfl⟩
    refine ⟨?_, hfixups.trans hone.2⟩
    rw [blockBytes_cons, ← List.append_assoc, ← hone.1]
    exact hbytes

section

variable {b₀ b : Buffer} {code : Array UInt8} {l : Label} {target : Nat}

-- ---------------------------------------------------------------------------
-- x86-64
-- ---------------------------------------------------------------------------

namespace X86

def Op.distance? : Op → Option Int32
  | .plain _ => none
  | .jmp distance | .jcc _ distance => some distance

/-- Where the instruction at an offset goes when it branches. -/
def branchTarget? (code : List UInt8) (offset : Nat) : Option Nat := do
  let (op, rest) ← decode architecture (code.drop offset)
  jump (code.length - rest.length) (← op.distance?)

/-- At `p` stands a branch to `q`. It changes nothing, and goes there or on to `r`. -/
structure BranchAt (ar : Arith UInt32) (code : List UInt8) (p q r : Nat) : Prop where
  target : branchTarget? code p = some q
  step : ∀ s c, Config.step? ar code (.at p s) = some c → c = .at q s ∨ c = .at r s

/-- A branch as it stands in the finished code, from the end of its distance to the label. -/
theorem rel32_in_code (h₀ : b₀.Orderly) (opcode : List UInt8)
    (h : (b₀.put (branchChunk opcode l)).Extends b) (hb : b.Orderly) (hcode : b.finish = .ok code)
    (htarget : b.position? l = some target) :
    ∃ (distance : Int32) (pre post : List UInt8),
      code.toList = pre ++ (opcode ++ le32 distance.toUInt32) ++ post ∧
        pre.length = b₀.bytes.size ∧
        (pre.length + (opcode ++ le32 distance.toUInt32).length : Nat) + distance.toInt =
          (target : Int) := by
  obtain ⟨target', pre, post, htarget', hreaches, haround, hlength⟩ :=
    Buffer.branch_in_code h₀ rfl rfl h hb hcode
  obtain rfl : target' = target := Option.some.inj (htarget'.symm.trans htarget)
  let f : Fixup := ⟨.rel32, b₀.bytes.size + opcode.length, l⟩
  have hword := Fixup.word_rel32 (f := f) rfl 0 (f.distance target')
  obtain ⟨hlo, hhi⟩ := Fixup.reaches_iff.mp hreaches
  refine ⟨Int32.ofInt (f.distance target'), pre, post, hword ▸ haround, hlength, ?_⟩
  rw [toInt_ofInt hlo hhi, List.length_append, Code.length_le32, hlength]
  simp only [Fixup.distance]
  omega

/-- A branch instruction in the finished code, with what its bytes decode to. -/
theorem branch_in_code (h₀ : b₀.Orderly) {i : Instr} (hl : i.chunk.branch.map (·.label) = some l)
    (h : (b₀.put i.chunk).Extends b) (hb : b.Orderly) (hcode : b.finish = .ok code)
    (htarget : b.position? l = some target) :
    ∃ (op : Op) (distance : Int32) (pre bytes post : List UInt8),
      op.distance? = some distance ∧ code.toList = pre ++ bytes ++ post ∧
        pre.length = b₀.bytes.size ∧ bytes.length = i.chunk.bytes.length ∧
        decode architecture (bytes ++ post) = some (op, post) ∧
        (pre.length + bytes.length : Nat) + distance.toInt = (target : Int) := by
  cases i with
  | jmp l' =>
    obtain rfl : l' = l := Option.some.inj hl
    obtain ⟨distance, pre, post, haround, hlength, hdistance⟩ :=
      rel32_in_code h₀ _ h hb hcode htarget
    exact ⟨.jmp distance, distance, pre, _, post, rfl, haround, hlength, rfl,
      decode_jmp architecture distance post, hdistance⟩
  | jcc cc l' =>
    obtain rfl : l' = l := Option.some.inj hl
    obtain ⟨distance, pre, post, haround, hlength, hdistance⟩ :=
      rel32_in_code h₀ _ h hb hcode htarget
    exact ⟨.jcc cc distance, distance, pre, _, post, rfl, haround, hlength, rfl,
      decode_jcc architecture cc distance post, hdistance⟩
  | load | store | lea | sse | vex | evex => simp [Instr.chunk, Code.Chunk.branch_ofExcept] at hl
  | _ => cases hl

theorem target_around {op : Op} {distance : Int32} (hop : op.distance? = some distance)
    {pre bytes post : List UInt8} (hdecode : decode architecture (bytes ++ post) = some (op, post))
    (h : (pre.length + bytes.length : Nat) + distance.toInt = (target : Int)) :
    branchTarget? (pre ++ bytes ++ post) pre.length = some target := by
  obtain ⟨hdrop, hnext⟩ := drop_code pre post bytes
  simp only [branchTarget?, hdrop, hdecode, hop, hnext, Option.bind_eq_bind, Option.bind_some,
    jump_eq h]

theorem target_put (h₀ : b₀.Orderly) {i : Instr} (hl : i.chunk.branch.map (·.label) = some l)
    (h : (b₀.put i.chunk).Extends b) (hb : b.Orderly) (hcode : b.finish = .ok code)
    (htarget : b.position? l = some target) :
    branchTarget? code.toList b₀.bytes.size = some target := by
  obtain ⟨op, distance, pre, bytes, post, hop, haround, hlength, -, hdecode, hdistance⟩ :=
    branch_in_code h₀ hl h hb hcode htarget
  rw [haround, ← hlength]
  exact target_around hop hdecode hdistance

variable (ar : Arith UInt32)

theorem branchAt_around {op : Op} {distance : Int32} (hop : op.distance? = some distance)
    {pre bytes post : List UInt8} (hdecode : decode architecture (bytes ++ post) = some (op, post))
    (h : (pre.length + bytes.length : Nat) + distance.toInt = (target : Int)) :
    BranchAt ar (pre ++ bytes ++ post) pre.length target (pre.length + bytes.length) := by
  obtain ⟨hdrop, hnext⟩ := drop_code pre post bytes
  have hjump := jump_eq h
  constructor
  · exact target_around hop hdecode h
  · intro s c hc
    simp only [Config.step?, hdrop, hdecode, hnext, Option.bind_eq_bind, Option.bind_some] at hc
    cases op with
    | plain i => cases hop
    | jmp d =>
      obtain rfl : d = distance := Option.some.inj hop
      simp only [hjump, Option.map_some] at hc
      exact .inl (Option.some.inj hc).symm
    | jcc cc d =>
      obtain rfl : d = distance := Option.some.inj hop
      cases cc with
      | zero | notZero =>
        simp only [hjump, Option.map_some] at hc
        split at hc
        all_goals simp [← Option.some.inj hc]
      | _ => cases hc

theorem branchAt_put (h₀ : b₀.Orderly) {i : Instr} (hl : i.chunk.branch.map (·.label) = some l)
    (h : (b₀.put i.chunk).Extends b) (hb : b.Orderly) (hcode : b.finish = .ok code)
    (htarget : b.position? l = some target) :
    BranchAt ar code.toList b₀.bytes.size target (b₀.put i.chunk).bytes.size := by
  obtain ⟨op, distance, pre, bytes, post, hop, haround, hlength, hbytes, hdecode, hdistance⟩ :=
    branch_in_code h₀ hl h hb hcode htarget
  rw [Buffer.size_put, haround, ← hlength, ← hbytes]
  exact branchAt_around ar hop hdecode hdistance

end X86

-- ---------------------------------------------------------------------------
-- AArch64
-- ---------------------------------------------------------------------------

namespace Arm64

def Op.distance? : Op → Option Int
  | .plain _ => none
  | .b distance | .bCond _ distance | .cbz _ distance | .cbnz _ distance => some distance

/-- Where the instruction at an offset goes when it branches. -/
def branchTarget? (code : List UInt8) (offset : Nat) : Option Nat := do
  target? offset (← (← decode (code.drop offset)).distance?)

/-- At `p` stands a branch to `q`. It changes nothing, and goes there or on to `r`. -/
structure BranchAt (code : List UInt8) (p q r : Nat) : Prop where
  target : branchTarget? code p = some q
  step : ∀ s c, Config.step? code (.at p s) = some c → c = .at q s ∨ c = .at r s

theorem word_in_code (h₀ : b₀.Orderly) {kind : Code.BranchKind} (hkind : kind ≠ .rel32)
    {w : UInt32} {fault : Option OperandFault}
    (h : (b₀.put (branch kind w l fault)).Extends b) (hb : b.Orderly)
    (hcode : b.finish = .ok code) (htarget : b.position? l = some target)
    (hwords : target % 4 = b₀.bytes.size % 4) :
    ∃ (d : Int) (pre post : List UInt8),
      code.toList = pre ++ le32 (w ||| UInt32.ofNat (d % 2 ^ kind.bits).toNat <<<
          UInt32.ofNat kind.shift) ++ post ∧
        pre.length = b₀.bytes.size ∧ (pre.length : Int) + 4 * d = target ∧
        -2 ^ (kind.bits - 1) ≤ d ∧ d < 2 ^ (kind.bits - 1) := by
  obtain ⟨target', pre, post, htarget', hreaches, haround, hlength⟩ :=
    Buffer.branch_in_code h₀ (List.nil_append _).symm rfl h hb hcode
  obtain rfl : target' = target := Option.some.inj (htarget'.symm.trans htarget)
  let f : Fixup := ⟨kind, b₀.bytes.size, l⟩
  have hdistance : f.distance target' = Int.tdiv (target' - b₀.bytes.size) 4 := by
    cases kind with
    | rel32 => exact absurd rfl hkind
    | imm26 | imm19 => rfl
  have hword := Fixup.word_ored (f := f) hkind w (f.distance target')
  obtain ⟨hlo, hhi⟩ := Fixup.reaches_iff.mp hreaches
  refine ⟨f.distance target', pre, post, hword ▸ haround, hlength, ?_, hlo, hhi⟩
  · have hdvd : (4 : Int) ∣ target' - b₀.bytes.size := by omega
    rw [hdistance, Int.mul_tdiv_cancel' hdvd, hlength]
    omega

theorem branchAt_around {w : UInt32} {op : Op} {d : Int} (hop : op.distance? = some d)
    (hdecode : decodeWord w = some op) {pre post : List UInt8}
    (h : (pre.length : Int) + d = target) :
    BranchAt (pre ++ le32 w ++ post) pre.length target (pre.length + 4) := by
  have hdrop : (pre ++ le32 w ++ post).drop pre.length = le32 w ++ post := by simp
  have htarget : target? pre.length d = some target := by simp [target?, h]
  have hto : ∀ taken s c, branchTo pre.length d taken s = some c →
      c = .at target s ∨ c = .at (pre.length + 4) s := by
    intro taken s c hc
    unfold branchTo at hc
    split at hc
    · rw [htarget] at hc
      exact .inl (Option.some.inj hc).symm
    · exact .inr (Option.some.inj hc).symm
  constructor
  · simp only [branchTarget?, hdrop, decode_le32, hdecode, hop, Option.bind_eq_bind,
      Option.bind_some, htarget]
  · intro s c hc
    simp only [Config.step?, hdrop, decode_le32, hdecode, Option.bind_eq_bind, Option.bind_some]
      at hc
    cases op with
    | plain i => cases hop
    | b d' | bCond cc d' | cbz t d' | cbnz t d' =>
      obtain rfl : d' = d := Option.some.inj hop
      exact hto _ s c hc

/-- One kind of branch, from how the decoder reads its words. -/
theorem branchAt_branch (h₀ : b₀.Orderly) (kind : Code.BranchKind) (hkind : kind ≠ .rel32)
    (w : UInt32) {fault : Option OperandFault} (op : Int → Op)
    (hop : ∀ d, (op d).distance? = some d)
    (hdecode : ∀ v < 2 ^ kind.bits, decodeWord (w ||| UInt32.ofNat v <<< UInt32.ofNat kind.shift) =
      some (op (4 * signed kind.bits v)))
    (h : (b₀.put (branch kind w l fault)).Extends b) (hb : b.Orderly)
    (hcode : b.finish = .ok code) (htarget : b.position? l = some target)
    (hwords : target % 4 = b₀.bytes.size % 4) :
    BranchAt code.toList b₀.bytes.size target (b₀.bytes.size + 4) := by
  obtain ⟨d, pre, post, haround, hlength, hdistance, hlo, hhi⟩ :=
    word_in_code h₀ hkind h hb hcode htarget hwords
  have hbits : kind.bits = 19 ∨ kind.bits = 26 := by
    cases kind with
    | rel32 => exact absurd rfl hkind
    | imm26 => exact .inr rfl
    | imm19 => exact .inl rfl
  have hv : (d % 2 ^ kind.bits).toNat < 2 ^ kind.bits := by
    rcases hbits with hbits | hbits <;> rw [hbits] <;> omega
  have hread := hdecode _ hv
  rw [signed_emod hbits hlo hhi] at hread
  rw [haround, ← hlength]
  exact branchAt_around (hop _) hread hdistance

theorem branchAt_put (h₀ : b₀.Orderly) {i : Instr} (hl : i.chunk.branch.map (·.label) = some l)
    (h : (b₀.put i.chunk).Extends b) (hb : b.Orderly) (hcode : b.finish = .ok code)
    (htarget : b.position? l = some target) (hwords : target % 4 = b₀.bytes.size % 4) :
    BranchAt code.toList b₀.bytes.size target (b₀.put i.chunk).bytes.size := by
  have hfault : i.chunk.fault = none :=
    ((Buffer.error_put _ _).mp (h.error (error_of_finish hcode))).2
  rw [Buffer.size_put]
  cases i with
  | b l' =>
    obtain rfl : l' = l := Option.some.inj hl
    refine branchAt_branch h₀ .imm26 (by decide) 0x14000000 .b (fun _ => rfl) (fun v hv => ?_)
      h hb hcode htarget hwords
    have hword : UInt32.ofNat v <<< UInt32.ofNat Code.BranchKind.imm26.shift = UInt32.ofNat v :=
      UInt32.shiftLeft_zero
    rw [hword]
    exact decodeWord_b hv
  | bCond cc l' =>
    obtain rfl : l' = l := Option.some.inj hl
    exact branchAt_branch h₀ .imm19 (by decide) (0x54000000 ||| cc.code) (.bCond cc)
      (fun _ => rfl) (fun _ hv => decodeWord_bCond cc hv) h hb hcode htarget hwords
  | cbz t l' =>
    obtain rfl : l' = l := Option.some.inj hl
    exact branchAt_branch h₀ .imm19 (by decide) (0xB4000000 ||| gprField t) (.cbz t)
      (fun _ => rfl) (fun _ hv => decodeWord_cbz (gprFault_none.mp hfault) hv) h hb hcode htarget
      hwords
  | cbnz t l' =>
    obtain rfl : l' = l := Option.some.inj hl
    exact branchAt_branch h₀ .imm19 (by decide) (0xB5000000 ||| gprField t) (.cbnz t)
      (fun _ => rfl) (fun _ hv => decodeWord_cbnz (gprFault_none.mp hfault) hv) h hb hcode htarget
      hwords
  | _ => cases hl

-- ---------------------------------------------------------------------------
-- Whole words
-- ---------------------------------------------------------------------------

theorem length_words (ws : List UInt32) : (ws.flatMap le32).length = 4 * ws.length := by
  induction ws with
  | nil => rfl
  | cons w ws ih =>
    rw [List.flatMap_cons, List.length_append, ih, Code.length_le32, List.length_cons]
    omega

theorem whole_words (i : Instr) : ∃ n, i.chunk.bytes.length = 4 * n := by
  cases i with
  | movImm d imm => exact ⟨_, length_words _⟩
  | _ => exact ⟨1, rfl⟩

end Arm64

end

namespace Script

variable {s s' : Script} {g g' : Generator}

theorem words_offer (h : g.table.target.isX86 = false) (e : Emission) :
    (g.offer e).buffer.bytes.size % 4 = g.buffer.bytes.size % 4 := by
  cases e with
  | x86 i => simp [Generator.offer, Emission.native, h]
  | arm i =>
    obtain ⟨n, hn⟩ := Arm64.whole_words i
    have hsize : (g.offer (.arm i)).buffer.bytes.size =
        g.buffer.bytes.size + i.chunk.bytes.length := by
      simp [Generator.offer, Emission.native, h, Generator.emit, Emission.apply]
    omega
  | fail e => rfl

theorem words_step (harm : g.table.target.isX86 = false) (hfree : s.FrameFree)
    (h : s.step g = some (s', g')) :
    g'.buffer.bytes.size % 4 = g.buffer.bytes.size % 4 ∧ s'.FrameFree := by
  cases s with
  | done => cases h
  | look next => cases h; exact ⟨rfl, hfree g⟩
  | emit e next => cases h; exact ⟨words_offer harm e, hfree⟩
  | newLabel next => cases h; exact ⟨rfl, hfree _⟩
  | bind l next =>
    cases h
    exact ⟨by simp [Generator.bind], hfree⟩
  | exitLabel next =>
    cases h
    refine ⟨?_, hfree _⟩
    unfold Generator.exitLabel
    split <;> rfl
  | frame stack body next => exact hfree.elim

theorem Reaches.words (h : s.Reaches g s' g') (harm : g.table.target.isX86 = false)
    (hfree : s.FrameFree) :
    g'.buffer.bytes.size % 4 = g.buffer.bytes.size % 4 ∧ s'.FrameFree := by
  induction h with
  | here s g => exact ⟨rfl, hfree⟩
  | step hs _ ih =>
    obtain ⟨hwords, hfree'⟩ := words_step harm hfree hs
    obtain ⟨hrest, hend⟩ := ih ((keeps_step hs).table ▸ harm) hfree'
    exact ⟨hrest.trans hwords, hend⟩

theorem reaches_end (s : Script) (g : Generator) : s.Reaches g .done (s.run g) := by
  induction s generalizing g with
  | done => exact .here _ _
  | look next ih => exact .step rfl (ih g g)
  | emit e next ih => exact .step rfl (ih _)
  | newLabel next ih => exact .step rfl (ih _ _)
  | bind l next ih => exact .step rfl (ih _)
  | exitLabel next ih => exact .step rfl (ih _ _)
  | frame stack body next _ ih => exact .step rfl (ih _)

end Script

end JitGemm
