import JitGemm.Proofs.Vector.Registers

/-!
# Code within the capability set

Every vector instruction belongs to the baseline of its architecture or to an extension. The code of
lane operations keeps to the extensions of the table, for an operation without an encoding is an
error. A register move is the exception: it takes its form from the width alone, whether or not the
table has an encoding of that width.
-/

namespace JitGemm

open X86 (Opcode Rm)

-- ---------------------------------------------------------------------------
-- Extensions
-- ---------------------------------------------------------------------------

/-- What a vector instruction asks of a processor. -/
inductive Need where
  | baseline
  | extension (i : Isa)
  deriving DecidableEq, Repr

def Need.Met (caps : IsaSet) : Need → Prop
  | baseline => True
  | extension i => caps.contains i

namespace X86

def Opcode.among (op : Opcode) (bytes : List UInt8) (n : Need) : Option Need :=
  if bytes.contains op.byte then some n else none

/-- The legacy family: SSE and SSE2 are the baseline. -/
def legacyNeed? (op : Opcode) : Option Need :=
  match op.pp, op.map with
  | .none, .m0F =>
    op.among [0x10, 0x11, 0x28, 0x52, 0x53, 0x57, 0x58, 0x59, 0x5C, 0xC2, 0xC6] .baseline
  | .p66, .m0F => op.among [0x67, 0x6B, 0x6E, 0x70, 0xEF, 0xFE] .baseline
  | .pF3, .m0F => op.among [0x10, 0x6F, 0x7F] .baseline
  | .p66, .m0F38 => op.among [0x14, 0x40] (.extension .sse41)
  | .p66, .m0F3A => op.among [0x08] (.extension .sse41)
  | _, _ => none

def Rm.isReg : Rm → Bool
  | .reg _ => true
  | .mem _ => false

/-- The VEX family. Integer operations and broadcasts of a register came with AVX2, the former at
256 bits only. -/
def vexNeed? (op : Opcode) (l256 : Bool) (rm : Rm) : Option Need :=
  let integer : Need := .extension (if l256 then .avx2 else .avx)
  match op.pp, op.map with
  | .none, .m0F =>
    op.among [0x10, 0x11, 0x28, 0x52, 0x53, 0x57, 0x58, 0x59, 0x5C, 0xC2, 0xC6] (.extension .avx)
  | .p66, .m0F =>
    if op.byte = 0x6E then if l256 then none else some (.extension .avx)
    else op.among [0x67, 0x6B, 0x70, 0xEF, 0xFE] integer
  | .pF3, .m0F => op.among [0x10, 0x6F, 0x7F] (.extension .avx)
  | .p66, .m0F38 =>
    if op.byte = 0x18 then some (.extension (if rm.isReg then .avx2 else .avx))
    else if op.byte = 0x40 then some integer
    else if op.byte = 0x58 then some (.extension .avx2)
    else op.among [0xA8, 0xB8] (.extension .fma)
  | .p66, .m0F3A =>
    if op.byte = 0x18 then if l256 then some (.extension .avx) else none
    else op.among [0x08, 0x4A] (.extension .avx)
  | _, _ => none

/-- The EVEX family at 512 bits. -/
def evexNeed? (op : Opcode) : Option Need :=
  match op.pp, op.map with
  | .none, .m0F =>
    if op.byte = 0x57 then some (.extension .avx512Core)
    else op.among [0x10, 0x11, 0x28, 0x58, 0x59, 0x5C, 0xC6] (.extension .avx512Common)
  | .p66, .m0F =>
    if op.byte = 0x67 ∨ op.byte = 0x6B then some (.extension .avx512Core)
    else op.among [0x70, 0xEF, 0xFE] (.extension .avx512Common)
  | .pF3, .m0F => op.among [0x6F, 0x7F] (.extension .avx512Common)
  | .p66, .m0F38 =>
    op.among [0x18, 0x40, 0x4C, 0x4E, 0x58, 0xA8, 0xB8] (.extension .avx512Common)
  | .p66, .m0F3A => op.among [0x08] (.extension .avx512Common)
  | _, _ => none

/-- Vector instructions that are none of these are unknown. -/
def Instr.need? : Instr → Option Need
  | .sse op _ _ _ => legacyNeed? op
  | .vex op false l256 _ _ rm _ => vexNeed? op l256 rm
  | .evex op false _ _ _ _ => evexNeed? op
  | _ => none

end X86

/-- Whether a processor with the extensions `caps` has an instruction. On AArch64 two bits tell the
instructions on vector registers from the others, which are all in the baseline. -/
def Fetched.Within (caps : IsaSet) : Fetched → Prop
  | .x86 (.plain i) => ∃ n ∈ i.need?, n.Met caps
  | .x86 _ => False
  | .word w => Arm64.bits w 26 2 = 3 → caps.contains .asimd

/-- Code whose every instruction a processor with the extensions `caps` has. -/
def WithinCaps (t : Target) (caps : IsaSet) (code : List UInt8) : Prop :=
  ∃ is, t.fetchAll? code = some is ∧ ∀ i ∈ is, i.Within caps

/-- The same with the instructions fetched whatever follows. -/
def Provided (t : Target) (caps : IsaSet) (code : List UInt8) : Prop :=
  ∃ is, t.Fetches code is ∧ ∀ i ∈ is, i.Within caps

section

variable {t : Target} {caps : IsaSet} {code code' : List UInt8} {is is' : List Fetched}

theorem Provided.within (h : Provided t caps code) : WithinCaps t caps code := by
  obtain ⟨is, hfetch, hwithin⟩ := h
  exact ⟨is, hfetch.fetchAll, hwithin⟩

theorem withinCaps_iff (h : t.Fetches code is) :
    WithinCaps t caps code ↔ ∀ i ∈ is, i.Within caps := by
  simp [WithinCaps, h.fetchAll]

theorem withinCaps_append (h : t.Fetches code is) (h' : t.Fetches code' is') :
    WithinCaps t caps (code ++ code') ↔ WithinCaps t caps code ∧ WithinCaps t caps code' := by
  rw [withinCaps_iff (h.append h'), withinCaps_iff h, withinCaps_iff h', List.forall_mem_append]

theorem Provided.nil : Provided t caps [] := ⟨[], .nil, by simp⟩

theorem Provided.append (h : Provided t caps code) (h' : Provided t caps code') :
    Provided t caps (code ++ code') := by
  obtain ⟨is, hfetch, hwithin⟩ := h
  obtain ⟨is', hfetch', hwithin'⟩ := h'
  exact ⟨is ++ is', hfetch.append hfetch', List.forall_mem_append.mpr ⟨hwithin, hwithin'⟩⟩

theorem provided_x86 (ht : t.isX86) {i : X86.Instr} (hi : i.Regular)
    (hclean : (Emission.x86 i).Clean) (hneed : ∃ n ∈ i.need?, n.Met caps) :
    Provided t caps (Emission.x86 i).bytes := by
  refine ⟨[.x86 (.plain i.canonical)], Target.fetches_x86 ht (hi.decodes hclean), ?_⟩
  rw [hi.canonical]
  simpa [Fetched.Within] using hneed

end

-- ---------------------------------------------------------------------------
-- What a lowering has
-- ---------------------------------------------------------------------------

namespace OpTable

variable {t : OpTable} {op : VecOp} {low : Lowering} {d a : Vreg} {b : VecSource}
  {imm : Option UInt8}

/-- The extensions that are there when an operation has a lowering. -/
theorem caps_of_lowering (ht : t.target.isX86) (h : t.lowering? op = some low) :
    (low = .legacy → op = .blend ∨ op = .round ∨ op = .pmullD → t.caps.contains .sse41) ∧
      (low = .vex → if op.isFma then t.caps.contains .fma else t.caps.contains .avx ∧
        (op = .broadcastFromReg ∨ op = .broadcastD ∨ op.needsAvx2 ∧ t.len = .v256 →
          t.caps.contains .avx2)) ∧
      (low = .evex → t.caps.contains .avx512Common ∧
        (op = .packSsdw ∨ op = .packUswb → t.caps.contains .avx512Core) ∧
        op ≠ .cmpGt ∧ op ≠ .cmpGe ∧ op ≠ .blend) := by
  rcases t with ⟨target, len, caps⟩
  have hx86 : target.isX86 = true := ht
  simp only [lowering?, hx86, ↓reduceIte] at h
  cases len with
  | v128 =>
    delta VecOp.lower128 VecOp.fmaLowering at h
    cases op <;> simp only [VecOp.isFma, Bool.false_eq_true, ↓reduceIte] at h <;>
      (repeat' split at h) <;> cases h <;> simp_all [VecOp.isFma]
  | v256 =>
    delta VecOp.lower256 VecOp.fmaLowering at h
    cases op <;> simp only [VecOp.isFma, VecOp.needsAvx2, Bool.false_eq_true, ↓reduceIte] at h <;>
      (repeat' split at h) <;> cases h <;> simp_all [VecOp.isFma, VecOp.needsAvx2]
  | v512 =>
    delta VecOp.lower512 at h
    cases op <;> simp only at h <;> (repeat' split at h) <;> cases h <;> simp_all

/-- Where there is a lowering at all, plain arithmetic and loads have one, and it is the base. -/
theorem lowering_plain (ht : t.target.isX86) (h : t.lowering? op = some low) {plain : VecOp}
    (hplain : plain = .load ∨ plain = .add ∨ plain = .mul) :
    t.lowering? plain = some t.baseLowering := by
  rcases t with ⟨target, len, caps⟩
  have hx86 : target.isX86 = true := ht
  simp only [lowering?, hx86, ↓reduceIte, baseLowering, vex, Bool.true_and] at h ⊢
  cases len with
  | v128 =>
    delta VecOp.lower128
    rcases hplain with rfl | rfl | rfl <;> cases caps.contains .avx <;> rfl
  | v256 =>
    delta VecOp.lower256 at h ⊢
    cases havx : caps.contains .avx with
    | false => simp [havx] at h
    | true => rcases hplain with rfl | rfl | rfl <;> rfl
  | v512 =>
    delta VecOp.lower512 at h ⊢
    cases hcommon : caps.contains .avx512Common with
    | false => simp [hcommon] at h
    | true => rcases hplain with rfl | rfl | rfl <;> rfl

theorem vex_caps (h : t.vex) : t.caps.contains .avx := by
  simp only [vex, Bool.and_eq_true] at h
  exact h.2

/-- The single instruction of an operation is there when the operation has this lowering. A
broadcast from memory takes its lane from memory. -/
theorem need_native (ht : t.target.isX86) (h : t.lowering? op = some low)
    (hb : op = .broadcastFromMem → ∃ m, b = .mem m) {i : X86.Instr}
    (hi : .x86 i ∈ t.native op low d a b imm) : ∃ n ∈ i.need?, n.Met t.caps := by
  obtain ⟨hsse, hvex, hevex⟩ := caps_of_lowering ht h
  obtain ⟨-, -, -, hlegacy⟩ := lowering_native ht h
  cases low with
  | legacy =>
    simp only [native, List.mem_singleton, Emission.x86.injEq] at hi
    subst hi
    have hplain := hlegacy rfl
    have hsse := hsse rfl
    cases op <;> simp_all [X86.Instr.need?, X86.legacyNeed?, X86.Opcode.among, VecOp.opcode,
      Need.Met, Synthesizes, VecOp.isFma]
  | vex =>
    simp only [native, List.mem_singleton, Emission.x86.injEq] at hi
    subst hi
    have hvex := hvex rfl
    -- integer operations need AVX2 at 256 bits only
    have hinteger : op.needsAvx2 → op.isFma = false →
        t.caps.contains (if t.len = .v256 then .avx2 else .avx) := by
      intro hop hfma
      simp only [hfma, Bool.false_eq_true, ↓reduceIte] at hvex
      split
      · exact hvex.2 (.inr (.inr ⟨hop, ‹_›⟩))
      · exact hvex.1
    cases op with
    | broadcastFromMem =>
      obtain ⟨m, rfl⟩ := hb rfl
      simp_all [X86.Instr.need?, X86.vexNeed?, VecOp.opcode, Need.Met, VecOp.isFma, Rm.isReg,
        Rm.ofSource]
    | broadcastFromReg =>
      simp only [VecOp.isFma, Bool.false_eq_true, ↓reduceIte] at hvex
      have hboth : t.caps.contains (if (Rm.ofSource b).isReg then .avx2 else .avx) := by
        split
        · exact hvex.2 (.inl trivial)
        · exact hvex.1
      simpa [X86.Instr.need?, X86.vexNeed?, VecOp.opcode, Need.Met] using hboth
    | packSsdw | packUswb | paddD | pmullD =>
      simpa [X86.Instr.need?, X86.vexNeed?, X86.Opcode.among, VecOp.opcode, Need.Met] using
        hinteger rfl rfl
    | _ =>
      simp_all [X86.Instr.need?, X86.vexNeed?, X86.Opcode.among, VecOp.opcode, Need.Met,
        VecOp.isFma]
  | evex =>
    simp only [native, List.mem_singleton, Emission.x86.injEq] at hi
    subst hi
    have hevex := hevex rfl
    cases op <;> simp_all [X86.Instr.need?, X86.evexNeed?, X86.Opcode.among, VecOp.opcode, Need.Met]
  | asimd | synthesized => simp [native, Emission.refuse] at hi

-- ---------------------------------------------------------------------------
-- Code on x86-64
-- ---------------------------------------------------------------------------

/-- Emissions that keep to the capability set, where they are no errors. -/
def Keeps (t : OpTable) (es : List Emission) : Prop :=
  ∀ e ∈ es, e.Clean → Provided t.target t.caps e.bytes

theorem Keeps.append {es fs : List Emission} (h : t.Keeps es) (h' : t.Keeps fs) :
    t.Keeps (es ++ fs) := List.forall_mem_append.mpr ⟨h, h'⟩

theorem Keeps.nil : t.Keeps [] := by simp [Keeps]

theorem Keeps.cons {e : Emission} {es : List Emission}
    (h : e.Clean → Provided t.target t.caps e.bytes) (h' : t.Keeps es) : t.Keeps (e :: es) :=
  List.forall_mem_cons.mpr ⟨h, h'⟩

theorem Keeps.fail (e : CodeError) : t.Keeps [.fail e] := .cons (fun h => h.elim) .nil

theorem Keeps.provided {es : List Emission} (h : t.Keeps es) (hclean : ∀ e ∈ es, e.Clean) :
    Provided t.target t.caps (blockBytes es) := by
  induction es with
  | nil => exact .nil
  | cons e es ih =>
    rw [List.forall_mem_cons] at hclean
    rw [blockBytes_cons]
    exact (h e List.mem_cons_self hclean.1).append
      (ih (fun e he => h e (List.mem_cons_of_mem _ he)) hclean.2)

theorem keeps_x86 (ht : t.target.isX86) {i : X86.Instr} (hi : i.Regular)
    (hneed : ∃ n ∈ i.need?, n.Met t.caps) : t.Keeps [.x86 i] :=
  .cons (fun hclean => provided_x86 ht hi hclean hneed) .nil

theorem keeps_native (ht : t.target.isX86) (h : t.lowering? op = some low)
    (himm : imm.isSome = X86.takesImm (op.opcode low))
    (hb : op = .broadcastFromMem → ∃ m, b = .mem m) : t.Keeps (t.native op low d a b imm) := by
  intro e he hclean
  cases e with
  | x86 i => exact provided_x86 ht (native_regular himm he) hclean (need_native ht h hb he)
  | arm i => cases low <;> simp [native, Emission.refuse] at he
  | fail e => exact hclean.elim

theorem keeps_move (ht : t.target.isX86) (h : t.lowering? op = some low) (s : Vreg) :
    t.Keeps (t.move d s) := by
  by_cases hne : d = s
  · simp [move, hne, Keeps]
  · obtain ⟨-, hvex, hevex⟩ := caps_of_lowering ht (lowering_plain ht h (.inl rfl))
    have hnative := (lowering_native ht h).2.1
    simp only [move, hne, ht, ↓reduceIte]
    cases hlow : t.baseLowering with
    | legacy | vex | evex =>
      simp only [hlow, VecOp.isFma, Bool.false_eq_true, ↓reduceIte, forall_const] at hvex hevex ⊢
      refine keeps_x86 ht ?_ ?_
      · simp +decide [X86.Instr.Regular, X86.Opcode.IsEscape]
      · simp_all [X86.Instr.need?, X86.legacyNeed?, X86.vexNeed?, X86.evexNeed?, X86.Opcode.among,
          movaps, Need.Met]
    | asimd | synthesized =>
      rw [hlow] at hnative
      exact hnative.elim

theorem keeps_legacyBinary (ht : t.target.isX86) (h : t.lowering? op = some .legacy)
    (himm : imm.isSome = X86.takesImm (op.opcode .legacy)) (hop : op ≠ .broadcastFromMem) :
    t.Keeps (t.legacyBinary op d a b imm) := by
  have hinstr : ∀ b : VecSource, t.Keeps (t.native op .legacy d ⟨0⟩ b imm) := fun b =>
    keeps_native ht h himm fun h => absurd h hop
  unfold legacyBinary
  split
  · split
    · exact hinstr _
    · exact ((keeps_move ht h _).append (keeps_move ht h _)).append (hinstr _)
  · exact (keeps_move ht h _).append (hinstr _)

theorem keeps_binary_x86 (ht : t.target.isX86) (hop : op ≠ .broadcastFromMem)
    (himm : ∀ low, imm.isSome = X86.takesImm (op.opcode low)) :
    t.Keeps (t.binary op d a b imm) := by
  unfold binary
  cases hlow : t.lowering? op with
  | none => exact .fail _
  | some low =>
    cases low with
    | legacy => exact keeps_legacyBinary ht hlow (himm _) hop
    | vex | evex => exact keeps_native ht hlow (himm _) fun h => absurd h hop
    | synthesized => exact .fail _
    | asimd => exact absurd rfl (lowering_ne_asimd ht hlow)

/-- The plain arithmetic inside a sequence has the lowering of its own operation. -/
theorem keeps_arith (ht : t.target.isX86) (h : t.lowering? op = some low) {plain : VecOp}
    (hplain : plain = .add ∨ plain = .mul) : t.Keeps (t.arith plain d a b) := by
  have hbase := lowering_plain ht h (.inr hplain)
  have hop : plain ≠ .broadcastFromMem := by rcases hplain with rfl | rfl <;> simp
  have himm : ∀ low, (none : Option UInt8).isSome = X86.takesImm (plain.opcode low) := by
    rcases hplain with rfl | rfl <;> exact fun _ => rfl
  unfold arith
  cases hlow : t.baseLowering with
  | legacy => exact keeps_legacyBinary ht (hlow ▸ hbase) (himm _) hop
  | vex | evex | asimd | synthesized =>
    exact keeps_native ht (hlow ▸ hbase) (himm _) fun h => absurd h hop

theorem keeps_mulThenAdd (ht : t.target.isX86) (h : t.lowering? op = some low) (fma : VecOp) :
    t.Keeps (t.mulThenAdd fma d a b) := by
  have hboth : ∀ (e x y : Vreg) (u v : VecSource),
      t.Keeps (t.arith .mul e x u ++ t.arith .add d y v) := fun _ _ _ _ _ =>
    (keeps_arith ht h (.inr rfl)).append (keeps_arith ht h (.inl rfl))
  unfold mulThenAdd
  cases fma with
  | fmadd213 =>
    simp only
    split <;> exact hboth _ _ _ _ _
  | _ => exact hboth _ _ _ _ _

theorem keeps_fma_x86 (ht : t.target.isX86) (hop : op ≠ .broadcastFromMem)
    (himm : ∀ low, (none : Option UInt8).isSome = X86.takesImm (op.opcode low)) :
    t.Keeps (t.fma op d a b) := by
  unfold fma
  cases hlow : t.lowering? op with
  | none => exact .fail _
  | some low =>
    cases low with
    | legacy => exact .fail _
    | vex | evex => exact keeps_native ht hlow (himm _) fun h => absurd h hop
    | synthesized => exact keeps_mulThenAdd ht hlow op
    | asimd => exact absurd rfl (lowering_ne_asimd ht hlow)

theorem keeps_synthBroadcast (ht : t.target.isX86) (h : t.lowering? op = some low) :
    t.Keeps (t.synthBroadcast op d b) := by
  have hlegacy : ∀ (opcode : Opcode) (rm : Rm) (imm : Option UInt8),
      opcode ∈ [movss, shufps, movd, pshufd] → imm.isSome = X86.takesImm opcode →
      t.Keeps [.x86 (.sse opcode d.num rm imm)] := by
    intro opcode rm imm hop himm
    simp only [List.mem_cons, List.not_mem_nil, or_false] at hop
    refine keeps_x86 ht ⟨himm, ?_⟩ ⟨.baseline, ?_, trivial⟩
    · rcases hop with rfl | rfl | rfl | rfl <;> simp +decide [X86.Opcode.IsEscape]
    · rcases hop with rfl | rfl | rfl | rfl <;> rfl
  have hvex : ∀ (opcode : Opcode) (l256 : Bool) (v : UInt8) (rm : Rm) (imm : Option UInt8),
      opcode ∈ [shufps, movd, pshufd] ∧ l256 = false ∨ opcode = insertf128 ∧ l256 = true →
      imm.isSome = X86.takesImm opcode → t.vex →
      t.Keeps [.x86 (.vex opcode false l256 d.num v rm imm)] := by
    intro opcode l256 v rm imm hop himm havx
    simp only [List.mem_cons, List.not_mem_nil, or_false] at hop
    refine keeps_x86 ht ⟨himm, ?_⟩ ⟨.extension .avx, ?_, vex_caps havx⟩
    · rcases hop with ⟨rfl | rfl | rfl, rfl⟩ | ⟨rfl, rfl⟩ <;> decide
    · rcases hop with ⟨rfl | rfl | rfl, rfl⟩ | ⟨rfl, rfl⟩ <;> rfl
  have hpair : ∀ {e f : Emission}, t.Keeps [e] → t.Keeps [f] → t.Keeps [e, f] := fun he hf =>
    he.append hf
  unfold synthBroadcast
  split
  · exact hpair (hlegacy _ _ _ (by simp) rfl) (hlegacy _ _ _ (by simp) rfl)
  · rename_i s
    split
    · rename_i havx
      have hshuffle :
          t.Keeps [.x86 (.vex shufps false false d.num s.num (.reg s.num) (some 0))] :=
        hvex _ _ _ _ _ (.inl ⟨by simp, rfl⟩) rfl havx
      split
      · exact hpair hshuffle (hvex _ _ _ _ _ (.inr ⟨rfl, rfl⟩) rfl havx)
      · exact hshuffle
    · exact (keeps_move ht h _).append (hlegacy _ _ _ (by simp) rfl)
  · split
    · rename_i havx
      exact hpair (hvex _ _ _ _ _ (.inl ⟨by simp, rfl⟩) rfl havx)
        (hvex _ _ _ _ _ (.inl ⟨by simp, rfl⟩) rfl havx)
    · exact hpair (hlegacy _ _ _ (by simp) rfl) (hlegacy _ _ _ (by simp) rfl)
  · split
    · rename_i havx
      exact hvex _ _ _ _ _ (.inl ⟨by simp, rfl⟩) rfl havx
    · exact hlegacy _ _ _ (by simp) rfl
  · exact .fail _

theorem keeps_unary_x86 (ht : t.target.isX86)
    (himm : ∀ low, t.lowering? op = some low → imm.isSome = X86.takesImm (op.opcode low))
    (hb : op = .broadcastFromMem → ∃ m, b = .mem m) : t.Keeps (t.unary op d b imm) := by
  unfold unary
  cases hlow : t.lowering? op with
  | none => exact .fail _
  | some low =>
    cases low with
    | legacy | vex | evex => exact keeps_native ht hlow (himm _ hlow) hb
    | synthesized => exact keeps_synthBroadcast ht hlow
    | asimd => exact absurd rfl (lowering_ne_asimd ht hlow)

theorem keeps_storeTo_x86 (ht : t.target.isX86) (hop : op = .store ∨ op = .intStore) (m : Address) :
    t.Keeps (t.storeTo op m d) := by
  unfold storeTo
  cases hlow : t.lowering? op with
  | none => exact .fail _
  | some low =>
    have hnat : t.Keeps (t.native op low d ⟨0⟩ (.mem m) none) :=
      keeps_native ht hlow (by rcases hop with rfl | rfl <;> rfl)
        (by rcases hop with rfl | rfl <;> simp)
    cases low with
    | legacy | vex | evex | synthesized => exact hnat
    | asimd => exact absurd rfl (lowering_ne_asimd ht hlow)

theorem keeps_clear_x86 (ht : t.target.isX86) : t.Keeps (t.clear d) := by
  unfold clear
  cases hlow : t.lowering? .zero with
  | none => exact .fail _
  | some low =>
    have hnat : t.Keeps (t.native .zero low d d (.reg d) none) :=
      keeps_native ht hlow (by cases low <;> rfl) (by simp)
    cases low with
    | legacy | vex | evex | synthesized => exact hnat
    | asimd => exact absurd rfl (lowering_ne_asimd ht hlow)

theorem keeps_blend_x86 (ht : t.target.isX86) (mask : Vreg) : t.Keeps (t.blend d b mask) := by
  unfold blend
  cases hlow : t.lowering? .blend with
  | none => exact .fail _
  | some low =>
    cases low with
    | legacy =>
      simp only
      split
      · exact keeps_native ht hlow rfl (by simp)
      · exact .fail _
    | vex | evex | synthesized => exact keeps_native ht hlow rfl (by simp)
    | asimd => exact absurd rfl (lowering_ne_asimd ht hlow)

-- ---------------------------------------------------------------------------
-- Code on AArch64
-- ---------------------------------------------------------------------------

theorem fetches_words (ht : t.target.isX86 = false) (ws : List UInt32) :
    t.target.Fetches (ws.flatMap Code.le32) (ws.map .word) := by
  induction ws with
  | nil => exact .nil
  | cons w ws ih => exact (Target.fetches_word ht w).append ih

/-- With Advanced SIMD in the set there is nothing that AArch64 lacks. -/
theorem keeps_arm (ht : t.target.isX86 = false) (hcaps : t.caps.contains .asimd)
    {es : List Emission} (hes : ∀ i, .x86 i ∉ es) : t.Keeps es := by
  intro e he hclean
  cases e with
  | x86 i => exact absurd he (hes i)
  | arm i =>
    refine ⟨i.words.map .word, ?_, ?_⟩
    · rw [Emission.bytes, i.bytes_words]
      exact fetches_words ht i.words
    · simp [Fetched.Within, hcaps]
  | fail e => exact hclean.elim

theorem x86_notMem_armAddress (target : Target) (m : Address) (size : Int32) (i : X86.Instr) :
    .x86 i ∉ (target.armAddress m size).1 := by
  unfold Target.armAddress
  split
  · simp [Emission.refuse]
  · split
    · simp
    · split <;> simp [Emission.refuse]

theorem x86_notMem_arm (ht : t.target.isX86 = false) (c : VecCall) (i : X86.Instr)
    (h : ∀ op, c.op? = some op → t.lowering? op = some .asimd) : .x86 i ∉ t.vector c := by
  have haddress := x86_notMem_armAddress t.target
  have hload : ∀ d m, .x86 i ∉ t.armLoad d m := fun d m => by simp [armLoad, haddress]
  have hstore : ∀ m s, .x86 i ∉ t.armStore m s := fun m s => by simp [armStore, haddress]
  have hmove : ∀ d s, .x86 i ∉ t.move d s := fun d s => by
    unfold move
    split <;> simp [ht]
  have hbinary : ∀ op d a b imm, t.lowering? op = some .asimd → .x86 i ∉ t.binary op d a b imm := by
    intro op d a b imm hlow
    simp only [binary, hlow]
    split
    · cases b <;> simp [armBinary, hload]
    · simp [noEncoding]
  have hunary : ∀ op d b imm, t.lowering? op = some .asimd → .x86 i ∉ t.unary op d b imm := by
    intro op d b imm hlow
    simp only [unary, hlow]
    unfold armUnary
    split
    · exact hload _ _
    · exact hload _ _
    · exact hmove _ _
    · exact hmove _ _
    · unfold armBroadcast armFormAddress
      (repeat' split) <;> simp [Emission.refuse]
    · simp
    · simp [Emission.refuse]
  cases c with
  | mov d s => exact hmove d s
  | zero d => simp [vector, clear, h _ rfl]
  | load d m | intLoad d m | broadcast d m | broadcastReg d s | broadcastD d s | round d s mode
  | rcp d s | rsqrt d s => exact hunary _ _ _ _ (h _ rfl)
  | store m s | intStore m s =>
    have hlow := h _ rfl
    simp [vector, storeTo, hlow, hstore]
  | add d a b | sub d a b | mul d a b | cmpGt d a b | cmpGe d a b | packSsdw d a b
  | packUswb d a b | paddD d a b | pmullD d a b => exact hbinary _ _ _ _ _ (h _ rfl)
  | fmadd213 d a b | fmadd231 d a b =>
    have hlow := h _ rfl
    simp only [vector, fma, hlow]
    exact hbinary _ _ _ _ _ hlow
  | blend d s mask =>
    have hlow := h _ rfl
    simp [lowering?, ht, VecOp.lowerAsimd] at hlow

-- ---------------------------------------------------------------------------
-- Calls
-- ---------------------------------------------------------------------------

theorem vector_none {c : VecCall} (hop : c.op? = some op) (h : t.lowering? op = none) :
    t.vector c = [t.noEncoding op] := by
  cases c <;> cases hop <;>
    simp [vector, clear, unary, storeTo, binary, fma, blend, h]

theorem keeps_vector {c : VecCall} (hop : c.op? = some op) : t.Keeps (t.vector c) := by
  cases ht : t.target.isX86 with
  | false =>
    cases hlow : t.lowering? op with
    | none =>
      rw [vector_none hop hlow]
      exact .fail _
    | some low =>
      obtain ⟨rfl, -, hcaps⟩ := lowering_arm ht hlow
      refine keeps_arm ht hcaps fun i => x86_notMem_arm ht c i fun op' hop' => ?_
      rw [hop, Option.some.injEq] at hop'
      rwa [← hop']
  | true =>
    cases c with
    | mov d s => cases hop
    | zero d => exact keeps_clear_x86 ht
    | load d m | intLoad d m | broadcast d m =>
      exact keeps_unary_x86 ht (fun _ _ => rfl) fun _ => ⟨m, rfl⟩
    | broadcastReg d s | broadcastD d s | rcp d s | rsqrt d s =>
      exact keeps_unary_x86 ht (fun low _ => by cases low <;> rfl) (by simp)
    | round d s mode => exact keeps_unary_x86 ht (fun _ _ => rfl) (by simp)
    | store m s => exact keeps_storeTo_x86 ht (.inl rfl) m
    | intStore m s => exact keeps_storeTo_x86 ht (.inr rfl) m
    | add d a b | sub d a b | mul d a b | cmpGt d a b | cmpGe d a b | packSsdw d a b
    | packUswb d a b | paddD d a b | pmullD d a b =>
      exact keeps_binary_x86 ht (by simp) fun _ => rfl
    | fmadd213 d a b | fmadd231 d a b => exact keeps_fma_x86 ht (by simp) fun _ => rfl
    | blend d s mask => exact keeps_blend_x86 ht mask

-- ---------------------------------------------------------------------------
-- Register moves
-- ---------------------------------------------------------------------------

section

variable {ops : BlockOps} {s : Vreg}

/-- The form of a register move. -/
def copyForm (t : OpTable) : X86.Form :=
  if t.target.isX86 then t.form t.baseLowering else Arm64.form

theorem combining_orr : Arm64.Combining ops orrBase fun _ x y i => x i ||| y i :=
  ⟨0x4EA00000, 0x1C00, by decide, by decide, by decide, fun w htop hmid => by
    rw [Arm64.combine?, htop, hmid]; rfl⟩

theorem copy_takes (hne : d ≠ s) (hclean : ∀ e ∈ t.move d s, e.Clean) (r : Registers) :
    Takes ops t.target (t.code (.mov d s)) r (r.write t.copyForm d (r s)) := by
  unfold code copyForm
  cases ht : t.target.isX86 with
  | true => exact move_takes ht hne hclean r
  | false =>
    simp only [vector, move, hne, ht, Bool.false_eq_true, ↓reduceIte] at hclean ⊢
    have hor : Takes ops t.target _ r _ :=
      v3_takes ht combining_orr (hclean _ List.mem_cons_self) r
    simpa using hor

/-- A register move copies the lanes of the table's width, and changes no other register. -/
def Copies (t : OpTable) (ops : BlockOps) (d s : Vreg) : Prop :=
  ∀ r : Registers, ∃ r', r.run? ops t.target (t.code (.mov d s)) = some r' ∧
    (∀ q : Fin 4, 4 * q.val < t.len.lanes → r' d q = r s q) ∧ ∀ v, v ≠ d → r' v = r v

theorem copyForm_lanes (t : OpTable) : t.len.lanes ≤ t.copyForm.lanes ∨ t.copyForm.lanes = 4 := by
  unfold copyForm form baseLowering
  cases t.target.isX86 <;> cases t.len <;> cases t.vex <;> decide

theorem copies_iff (hne : d ≠ s) (hclean : ∀ e ∈ t.move d s, e.Clean) :
    t.Copies ops d s ↔ t.len.lanes ≤ t.copyForm.lanes := by
  constructor
  · intro h
    rcases t.copyForm_lanes with hwide | hnarrow
    · exact hwide
    · -- the second block of the destination is not that of the source
      obtain ⟨r', hrun, hcopied, -⟩ := h fun v _ _ => if v = s then 1 else 0
      rw [(copy_takes hne hclean _).run, Option.some.injEq] at hrun
      subst hrun
      refine Nat.not_lt.mp fun hlt => ?_
      have hlane := congrFun (hcopied 1 (by rw [hnarrow] at hlt; exact hlt)) 0
      simp [Registers.write, hnarrow, hne] at hlane
  · intro hwide r
    refine ⟨_, (copy_takes hne hclean r).run, fun q hq => ?_, fun v hv => ?_⟩
    · simp [Registers.write, Nat.lt_of_lt_of_le hq hwide]
    · funext q
      simp [Registers.write, hv]

/-- What a register move asks of the processor. -/
def CopyAllowed (t : OpTable) : Prop :=
  if t.target.isX86 then t.len = .v512 → t.caps.contains .avx512Common
  else t.caps.contains .asimd

theorem move_fetches (hne : d ≠ s) (hclean : ∀ e ∈ t.move d s, e.Clean) :
    ∃ i, t.target.Fetches (t.code (.mov d s)) [i] ∧ (i.Within t.caps ↔ t.CopyAllowed) := by
  unfold code CopyAllowed
  cases ht : t.target.isX86 with
  | false =>
    simp only [vector, move, hne, ht, Bool.false_eq_true, ↓reduceIte] at hclean ⊢
    obtain ⟨hd, hs, -⟩ := Arm64.v3_clean (hclean _ List.mem_cons_self)
    have hhigh : (0x4EA00000 : UInt32).toNat % 2 ^ 21 = 0 := by decide
    have hlow : (0x1C00 : UInt32).toNat < 2 ^ 16 ∧ (0x1C00 : UInt32).toNat % 2 ^ 10 = 0 := by decide
    have hbits := (Arm64.bits_vec3 hhigh hlow hd hs hs).1
    simp only [blockBytes_cons, blockBytes_nil, List.append_nil]
    refine ⟨_, Target.fetches_word ht _, ?_⟩
    -- the class of vector arithmetic is two of the bits that the copy leads with
    have hvector : ∀ w : UInt32, Arm64.bits w 21 11 = 0x4EA00000 / 2 ^ 21 →
        Arm64.bits w 26 2 = 3 := by
      intro w hw
      unfold Arm64.bits at hw ⊢
      omega
    simp only [Fetched.Within]
    exact imp_iff_right (hvector _ hbits)
  | true =>
    have hsingle : ∀ {i : X86.Instr}, t.move d s = [.x86 i] → i.Regular →
        t.target.Fetches (blockBytes (t.move d s)) [.x86 (.plain i)] := by
      intro i hi hregular
      have hfetch := Target.fetches_x86 ht (hregular.decodes (hclean _ (by simp [hi])))
      rw [hregular.canonical] at hfetch
      simpa [hi, Emission.bytes] using hfetch
    rcases t.base_cases with ⟨hlow, hlen⟩ | ⟨hlow, hlen, hvex⟩ | ⟨hlow, hlen⟩
    all_goals
      refine ⟨_, hsingle (by simp only [move, hne, ht, hlow, ↓reduceIte]; rfl) ?_, ?_⟩
      · simp +decide [X86.Instr.Regular, X86.Opcode.IsEscape]
    · simp [Fetched.Within, X86.Instr.need?, X86.legacyNeed?, X86.Opcode.among, movaps, Need.Met,
        hlen]
    · simp [Fetched.Within, X86.Instr.need?, X86.vexNeed?, X86.Opcode.among, movaps, Need.Met,
        hlen, vex_caps hvex]
    · simp [Fetched.Within, X86.Instr.need?, X86.evexNeed?, X86.Opcode.among, movaps, Need.Met,
        hlen]

/-- The whole of a register move, and only what the set allows, just where the table has loads. -/
theorem copy_iff_load :
    t.CopyAllowed ∧ t.len.lanes ≤ t.copyForm.lanes ↔ (t.lowering? .load).isSome := by
  rcases t with ⟨target, len, caps⟩
  cases ht : target.isX86 with
  | false =>
    cases len <;> cases hasimd : caps.contains .asimd <;>
      simp [CopyAllowed, copyForm, lowering?, VecOp.lowerAsimd, ht, hasimd, Arm64.form,
        VecLen.lanes, VecLen.bytes]
  | true =>
    unfold CopyAllowed copyForm lowering? form baseLowering vex
    simp only [ht, ↓reduceIte, Bool.true_and]
    cases len with
    | v128 =>
      delta VecOp.lower128
      cases caps.contains .avx <;> simp +decide
    | v256 =>
      delta VecOp.lower256
      cases caps.contains .avx <;> simp +decide
    | v512 =>
      delta VecOp.lower512
      cases caps.contains .avx512Common <;> simp +decide

-- ---------------------------------------------------------------------------
-- Sequences of calls
-- ---------------------------------------------------------------------------

/-- The code of a call can be fetched, and asks for more than the set has only where it is that of a
register move. -/
theorem call_within {c : VecCall} (hclean : ∀ e ∈ t.vector c, e.Clean) :
    (∃ is, t.target.Fetches (t.code c) is) ∧
      (WithinCaps t.target t.caps (t.code c) ↔ ∀ d s, c = .mov d s → d ≠ s → t.CopyAllowed) := by
  by_cases hmov : ∃ d s, c = .mov d s ∧ d ≠ s
  · obtain ⟨d, s, rfl, hne⟩ := hmov
    obtain ⟨i, hfetch, hwithin⟩ := move_fetches hne hclean
    refine ⟨⟨_, hfetch⟩, ?_⟩
    rw [withinCaps_iff hfetch, List.forall_mem_singleton, hwithin]
    refine ⟨fun h _ _ _ _ => h, fun h => h d s rfl hne⟩
  · have hprovided : Provided t.target t.caps (t.code c) := by
      cases hop : c.op? with
      | some op => exact (keeps_vector hop).provided hclean
      | none =>
        cases c with
        | mov d s =>
          have hsame : d = s := Decidable.byContradiction fun hne => hmov ⟨d, s, rfl, hne⟩
          simpa [code, vector, move, hsame] using Provided.nil
        | _ => cases hop
    obtain ⟨is, hfetch, -⟩ := id hprovided
    exact ⟨⟨is, hfetch⟩, fun _ d s hc hne => absurd ⟨d, s, hc, hne⟩ hmov,
      fun _ => hprovided.within⟩

theorem calls_within {calls : List VecCall}
    (hclean : ∀ c ∈ calls, ∀ e ∈ t.vector c, e.Clean) :
    (∃ is, t.target.Fetches (calls.flatMap t.code) is) ∧
      (WithinCaps t.target t.caps (calls.flatMap t.code) ↔
        ∀ c ∈ calls, WithinCaps t.target t.caps (t.code c)) := by
  induction calls with
  | nil => exact ⟨⟨[], .nil⟩, by simpa using Provided.nil.within⟩
  | cons c calls ih =>
    rw [List.forall_mem_cons] at hclean
    obtain ⟨⟨is, hfetch⟩, -⟩ := call_within hclean.1
    obtain ⟨⟨is', hfetch'⟩, hwithin⟩ := ih hclean.2
    rw [List.flatMap_cons]
    refine ⟨⟨_, hfetch.append hfetch'⟩, ?_⟩
    rw [withinCaps_append hfetch hfetch', hwithin, List.forall_mem_cons]

end

end OpTable

namespace Generator

theorem buffer_vectors (g : Generator) (calls : List VecCall) :
    (calls.foldl vector g).buffer =
      (calls.flatMap g.table.vector).foldl Emission.apply g.buffer := by
  induction calls generalizing g with
  | nil => rfl
  | cons c calls ih =>
    rw [List.foldl_cons, ih, List.flatMap_cons, List.foldl_append]
    rfl

/-- When no error is left after some calls, the code of each one but the register moves keeps to the
extensions of the table. All of the code does, and every move between two registers copies the whole
width, just when there is no such move or the table has an encoding for loads: a move does not ask
the table, so at a width that the set does not reach it copies too little, or with an instruction
that is not in the set. -/
theorem vectors_within (ops : BlockOps) (g : Generator) (calls : List VecCall)
    (hok : (calls.foldl vector g).buffer.error = none) :
    let t := g.table
    (calls.foldl vector g).buffer.bytes.toList =
        g.buffer.bytes.toList ++ calls.flatMap t.code ∧
      (∀ c ∈ calls, (∀ d s, c ≠ .mov d s) → WithinCaps t.target t.caps (t.code c)) ∧
      (WithinCaps t.target t.caps (calls.flatMap t.code) ∧
          (∀ d s, .mov d s ∈ calls → d ≠ s → t.Copies ops d s) ↔
        ∀ d s, .mov d s ∈ calls → d ≠ s → (t.lowering? .load).isSome) := by
  intro t
  rw [buffer_vectors] at hok ⊢
  have hclean : ∀ c ∈ calls, ∀ e ∈ t.vector c, e.Clean := fun c hc e he =>
    (ok_foldl hok).2 e (List.mem_flatMap_of_mem hc he)
  refine ⟨?_, fun c hc hmov => ?_, ?_⟩
  · rw [bytes_foldl_apply, blockBytes, List.flatMap_assoc]
    rfl
  · exact (OpTable.call_within (hclean c hc)).2.mpr fun d s h => absurd h (hmov d s)
  · rw [(OpTable.calls_within hclean).2]
    constructor
    · rintro ⟨hwithin, hcopies⟩ d s hmem hne
      have hallowed := (OpTable.call_within (hclean _ hmem)).2.mp (hwithin _ hmem) d s rfl hne
      have hwide := (OpTable.copies_iff hne (hclean _ hmem)).mp (hcopies d s hmem hne)
      exact OpTable.copy_iff_load.mp ⟨hallowed, hwide⟩
    · intro hload
      refine ⟨fun c hc => (OpTable.call_within (hclean c hc)).2.mpr fun d s hmov hne => ?_,
        fun d s hmem hne => (OpTable.copies_iff hne (hclean _ hmem)).mpr ?_⟩
      · subst hmov
        exact (OpTable.copy_iff_load.mpr (hload d s hc hne)).1
      · exact (OpTable.copy_iff_load.mpr (hload d s hmem hne)).2

/-- A move, a multiply-add in two steps and a broadcast by a shuffle, with SSE2 alone. -/
theorem baseline_within :
    let g : Generator := { name := "k", origin := "k", table := ⟨.sysV, .v128, .empty⟩ }
    let calls : List VecCall :=
      [.mov ⟨0⟩ ⟨1⟩, .fmadd231 ⟨2⟩ ⟨0⟩ (.reg ⟨1⟩), .broadcastReg ⟨3⟩ ⟨2⟩]
    (calls.foldl vector g).buffer.error = none ∧
      WithinCaps .sysV .empty (calls.flatMap g.table.code) ∧
      g.table.Copies BlockOps.words ⟨0⟩ ⟨1⟩ := by
  intro g calls
  have hok : (calls.foldl vector g).buffer.error = none := by decide
  obtain ⟨-, -, hall⟩ := vectors_within BlockOps.words g calls hok
  obtain ⟨hwithin, hcopies⟩ := hall.mpr fun _ _ _ _ => by decide
  exact ⟨hok, hwithin, hcopies ⟨0⟩ ⟨1⟩ (by simp [calls]) (by decide)⟩

/-- With no extension in the set: at 512 bits a move is an instruction of AVX-512, and at 256 bits
it copies half of the register. Neither leaves an error. -/
theorem mov_beyond_set :
    let g : VecLen → Generator := fun len =>
      { name := "k", origin := "k", table := ⟨.sysV, len, .empty⟩ }
    let mov : VecCall := .mov ⟨0⟩ ⟨1⟩
    ((g .v512).vector mov).buffer.error = none ∧
      ¬ WithinCaps .sysV .empty ((g .v512).table.code mov) ∧
      ((g .v256).vector mov).buffer.error = none ∧
      ¬ (g .v256).table.Copies BlockOps.words ⟨0⟩ ⟨1⟩ := by
  intro g mov
  have hok : ∀ len, ((g len).vector mov).buffer.error = none := by
    intro len
    cases len <;> decide
  have hclean : ∀ len, ∀ e ∈ (g len).table.vector mov, e.Clean := fun len =>
    (ok_foldl (hok len)).2
  refine ⟨hok _, ?_, hok _, ?_⟩
  · rw [(OpTable.call_within (hclean .v512)).2]
    intro h
    have hallowed := h ⟨0⟩ ⟨1⟩ rfl (by decide)
    simp [OpTable.CopyAllowed, g, Target.isX86] at hallowed
  · rw [OpTable.copies_iff (by decide) (hclean .v256)]
    decide

end Generator

end JitGemm
