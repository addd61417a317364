import JitGemm.Generator.Emission
import JitGemm.Proofs.X86.Machine

/-!
# Blocks of code

Emissions without branches run one after the other, and the machine does over their bytes what they
say. Branches and the return are single steps.
-/

namespace JitGemm

open X86 (Machine Config Runs decode architecture)

namespace Emission

def bytes : Emission → List UInt8
  | x86 i => i.chunk.bytes
  | arm i => i.chunk.bytes
  | fail _ => []

/-- An instruction that the machine reads back from its bytes. -/
def Decodes : Emission → Prop
  | x86 i => i.Integer ∨ i = .vzeroupper ∨ i.Vector architecture ∧ i.Apart
  | _ => False

theorem Decodes.integer {i : X86.Instr} (h : i.Integer) : (x86 i).Decodes := .inl h

theorem Decodes.vector {i : X86.Instr} (h : i.Vector architecture) (h' : i.Apart) :
    (x86 i).Decodes := .inr (.inr ⟨h, h'⟩)

end Emission

namespace X86

/-- The opcodes that the machine knows are none that another format takes. -/
theorem kind_facts {op : Opcode} {k : VectorKind} (h : op.kind? = some k) :
    takesImm op = k.wantsImm ∧ ¬ op.IsEscape ∧ op.byte &&& 0xF0 ≠ 0x80 ∧ op.byte ≠ 0x77 := by
  rcases op with ⟨pp, map, byte⟩
  simp only [Opcode.kind?] at h
  split at h <;> cases h <;> simp +decide [Opcode.IsEscape]

variable {op : Opcode} {k : VectorKind} {reg vvvv : UInt8} {rm : Rm} {imm : Option UInt8}

theorem decodes_sse (hk : op.kind? = some k) (himm : imm.isSome = k.wantsImm) (hreg : reg ≤ 15)
    (hrm : regAbove 15 rm = false) (h : checkRm rm = .ok ()) :
    (Emission.x86 (.sse op reg rm imm)).Decodes := by
  obtain ⟨htakes, hescape, hjump, -⟩ := kind_facts hk
  exact .vector ⟨hreg, hrm, h, himm.trans htakes.symm, hescape⟩ fun _ => hjump

theorem decodes_vex (hk : op.kind? = some k) (himm : imm.isSome = k.wantsImm) (w l256 : Bool)
    (hreg : reg ≤ 15) (hv : vvvv ≤ 15) (hrm : regAbove 15 rm = false) (h : checkRm rm = .ok ()) :
    (Emission.x86 (.vex op w l256 reg vvvv rm imm)).Decodes := by
  obtain ⟨htakes, -, -, hupper⟩ := kind_facts hk
  exact .vector ⟨⟨hreg, hv⟩, hrm, h, himm.trans htakes.symm⟩ hupper

theorem decodes_evex (hk : op.kind? = some k) (himm : imm.isSome = k.wantsImm) (w : Bool)
    (hreg : reg ≤ 31) (hv : vvvv ≤ 31) (hrm : regAbove 31 rm = false) (h : checkRm rm = .ok ()) :
    (Emission.x86 (.evex op w reg vvvv rm imm)).Decodes := by
  obtain ⟨htakes, -⟩ := kind_facts hk
  exact .vector ⟨⟨hreg, hv⟩, hrm, h, himm.trans htakes.symm⟩ trivial

end X86

def blockBytes (es : List Emission) : List UInt8 := es.flatMap Emission.bytes

@[simp] theorem blockBytes_nil : blockBytes [] = [] := rfl

@[simp] theorem blockBytes_cons (e : Emission) (es : List Emission) :
    blockBytes (e :: es) = e.bytes ++ blockBytes es := by
  simp [blockBytes]

@[simp] theorem blockBytes_append (es fs : List Emission) :
    blockBytes (es ++ fs) = blockBytes es ++ blockBytes fs := by
  simp [blockBytes]

namespace X86

variable (ar : Arith UInt32)

def Machine.block (s : Machine) : List Emission → Option Machine
  | [] => some s
  | .x86 i :: es => (s.exec ar i).bind fun s => s.block es
  | _ :: _ => none

variable {ar}

theorem Machine.block_append {es fs : List Emission} {s t u : Machine}
    (h : s.block ar es = some t) (h' : t.block ar fs = some u) :
    s.block ar (es ++ fs) = some u := by
  induction es generalizing s with
  | nil =>
    obtain rfl := Option.some.inj h
    exact h'
  | cons e es ih =>
    cases e with
    | x86 i =>
      obtain ⟨s', hs, ht⟩ := Option.bind_eq_some_iff.mp h
      simp [Machine.block, hs, ih ht]
    | arm i => cases h
    | fail e => cases h

theorem decode_emission {i : Instr} (h : (Emission.x86 i).Decodes) (rest : List UInt8) :
    decode architecture (i.chunk.bytes ++ rest) = some (.plain i.canonical, rest) := by
  rcases h with h | rfl | ⟨h, h'⟩
  · exact decode_integer h rest
  · rfl
  · have hcanonical : i.canonical = i := by cases i <;> first | rfl | exact h.elim
    rw [hcanonical]
    exact decode_vector h h' rest

theorem exec_canonical (s : Machine) (i : Instr) : s.exec ar i.canonical = s.exec ar i := by
  cases i <;> rfl

section

variable (pre post : List UInt8)

theorem drop_code (bytes : List UInt8) :
    (pre ++ bytes ++ post).drop pre.length = bytes ++ post ∧
      (pre ++ bytes ++ post).length - post.length = pre.length + bytes.length := by
  constructor
  · simp
  · simp only [List.length_append]
    omega

theorem step_instr {i : Instr} (hi : (Emission.x86 i).Decodes) {s s' : Machine}
    (h : s.exec ar i = some s') :
    Config.step? ar (pre ++ i.chunk.bytes ++ post) (.at pre.length s) =
      some (.at (pre.length + i.chunk.bytes.length) s') := by
  obtain ⟨hdrop, hlength⟩ := drop_code pre post i.chunk.bytes
  rw [← exec_canonical] at h
  have hret : i.canonical ≠ .ret := by
    rintro hret
    rw [hret] at h
    cases h
  simp only [Config.step?, hdrop, decode_emission hi, Option.bind_eq_bind, Option.bind_some,
    hlength, h]
  rfl

theorem runs_block {es : List Emission} (hes : ∀ e ∈ es, e.Decodes) {s s' : Machine}
    (h : s.block ar es = some s') :
    Runs ar (pre ++ blockBytes es ++ post) (.at pre.length s)
      (.at (pre.length + (blockBytes es).length) s') := by
  induction es generalizing pre s with
  | nil =>
    obtain rfl := Option.some.inj h
    exact .refl _
  | cons e es ih =>
    cases e with
    | x86 i =>
      obtain ⟨t, ht, hrest⟩ := Option.bind_eq_some_iff.mp h
      have hstep := step_instr pre (blockBytes es ++ post) (hes _ List.mem_cons_self) ht
      have hruns := ih (pre ++ i.chunk.bytes) (fun e he => hes e (List.mem_cons_of_mem _ he)) hrest
      simp only [blockBytes_cons, Emission.bytes, List.append_assoc, List.length_append,
        Nat.add_assoc] at hstep hruns ⊢
      exact .step hstep hruns
    | arm i => cases h
    | fail e => cases h

-- ---------------------------------------------------------------------------
-- Branches and the return
-- ---------------------------------------------------------------------------

/-- A conditional branch with its distance. -/
def jccBytes (cc : Cond) (distance : Int32) : List UInt8 :=
  0x0F :: (0x80 ||| cc.code) :: Code.le32 distance.toUInt32

theorem jump_eq {offset target : Nat} {distance : Int32}
    (h : (offset : Int) + distance.toInt = target) : jump offset distance = some target := by
  simp [jump, h]

theorem length_jccBytes (cc : Cond) (distance : Int32) : (jccBytes cc distance).length = 6 := rfl

theorem decode_jccBytes (cc : Cond) (distance : Int32) :
    decode architecture (jccBytes cc distance ++ post) = some (.jcc cc distance, post) :=
  decode_jcc architecture cc distance post

variable (ar)

theorem step_jz {distance : Int32} {target : Nat}
    (htarget : (pre.length + 6 : Nat) + distance.toInt = target) (s : Machine) :
    Config.step? ar (pre ++ jccBytes .zero distance ++ post) (.at pre.length s) =
      some (.at (if s.zf then target else pre.length + 6) s) := by
  obtain ⟨hdrop, hlength⟩ := drop_code pre post (jccBytes .zero distance)
  simp only [Config.step?, hdrop, decode_jccBytes, Option.bind_eq_bind, Option.bind_some, hlength,
    length_jccBytes]
  cases s.zf with
  | false => rfl
  | true => simp [jump_eq htarget]

theorem step_jnz {distance : Int32} {target : Nat}
    (htarget : (pre.length + 6 : Nat) + distance.toInt = target) (s : Machine) :
    Config.step? ar (pre ++ jccBytes .notZero distance ++ post) (.at pre.length s) =
      some (.at (if s.zf then pre.length + 6 else target) s) := by
  obtain ⟨hdrop, hlength⟩ := drop_code pre post (jccBytes .notZero distance)
  simp only [Config.step?, hdrop, decode_jccBytes, Option.bind_eq_bind, Option.bind_some, hlength,
    length_jccBytes]
  cases s.zf with
  | false => simp [jump_eq htarget]
  | true => rfl

theorem step_ret (s : Machine) :
    Config.step? ar (pre ++ Instr.ret.chunk.bytes ++ post) (.at pre.length s) =
      some (.left (s.mem.read64 (s.gpr .rsp)) (s.setGpr .rsp (s.gpr .rsp + 8))) := by
  obtain ⟨hdrop, hlength⟩ := drop_code pre post Instr.ret.chunk.bytes
  have hdecode : decode architecture (Instr.ret.chunk.bytes ++ post) = some (.plain .ret, post) :=
    decode_integer (show Instr.ret.Integer from trivial) post
  simp only [Config.step?, hdrop, hdecode, Option.bind_eq_bind, Option.bind_some]

end

end X86

end JitGemm
