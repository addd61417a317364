import JitGemm.Proofs.Arm64.RoundTrip
import JitGemm.Proofs.Generator.Fetching

/-!
# Code on vector registers

What a processor makes of the bytes of lane operations between registers. Code is fetched from the
front, instruction by instruction, and every instruction works on the blocks of 128 bits of its
registers: some mix the lanes of a block, and none goes past one. What arithmetic does to a block is
left open. Memory operands are not followed.
-/

namespace JitGemm

open Code (le32)
open X86 (Form)

-- ---------------------------------------------------------------------------
-- Calls
-- ---------------------------------------------------------------------------

def OpTable.code (t : OpTable) (c : VecCall) : List UInt8 := blockBytes (t.vector c)

theorem Generator.bytes_vector (g : Generator) (c : VecCall) :
    (g.vector c).buffer.bytes.toList = g.buffer.bytes.toList ++ g.table.code c :=
  bytes_foldl_apply _ _

-- ---------------------------------------------------------------------------
-- Instructions that are read back
-- ---------------------------------------------------------------------------

/-- A vector instruction that has an immediate byte where its opcode wants one, with an opcode that
no other format takes. -/
def X86.Instr.Regular : X86.Instr → Prop
  | .sse op _ _ imm =>
    imm.isSome = X86.takesImm op ∧ ¬ op.IsEscape ∧ (op.map = .m0F → op.byte &&& 0xF0 ≠ 0x80)
  | .vex op _ _ _ _ _ imm => imm.isSome = X86.takesImm op ∧ op.byte ≠ 0x77
  | .evex op _ _ _ _ imm => imm.isSome = X86.takesImm op
  | _ => False

namespace X86.Instr.Regular

variable {i : X86.Instr}

theorem canonical (h : i.Regular) : i.canonical = i := by
  cases i <;> first | rfl | exact h.elim

theorem decodes (h : i.Regular) (hclean : (Emission.x86 i).Clean) : (Emission.x86 i).Decodes := by
  cases i with
  | sse op reg rm imm =>
    obtain ⟨hreg, hrm, haddr⟩ := X86.sse_clean hclean
    exact .vector ⟨hreg, hrm, haddr, h.1, h.2.1⟩ h.2.2
  | vex op w l256 reg vvvv rm imm =>
    obtain ⟨hreg, hv, hrm, haddr⟩ := X86.vex_clean hclean
    exact .vector ⟨⟨hreg, hv⟩, hrm, haddr, h.1⟩ h.2
  | evex op w reg vvvv rm imm =>
    obtain ⟨hreg, hv, hrm, haddr⟩ := X86.evex_clean hclean
    exact .vector ⟨⟨hreg, hv⟩, hrm, haddr, h⟩ trivial
  | _ => exact h.elim

end X86.Instr.Regular

/-- The single instruction of every operation is regular. -/
theorem OpTable.native_regular {t : OpTable} {op : VecOp} {low : Lowering} {d a : Vreg}
    {b : VecSource} {imm : Option UInt8} (himm : imm.isSome = X86.takesImm (op.opcode low))
    {i : X86.Instr} (hi : .x86 i ∈ t.native op low d a b imm) : i.Regular := by
  cases low with
  | asimd | synthesized => simp [native, Emission.refuse] at hi
  | legacy | vex | evex =>
    simp only [native, List.mem_singleton, Emission.x86.injEq] at hi
    subst hi
    cases op <;> simp +decide [X86.Instr.Regular, himm, VecOp.opcode, X86.Opcode.IsEscape]

-- ---------------------------------------------------------------------------
-- Blocks
-- ---------------------------------------------------------------------------

/-- A block of 128 bits as four words. -/
abbrev Quad := Fin 4 → UInt32

/-- Vector registers of four blocks, the widest there are; narrower ones are the low blocks. -/
abbrev Registers := Vreg → Fin 4 → Quad

/-- What arithmetic does to blocks. Nothing is known of it but which operands may be swapped. -/
structure BlockOps where
  add : Quad → Quad → Quad
  sub : Quad → Quad → Quad
  mul : Quad → Quad → Quad
  addInt : Quad → Quad → Quad
  mulInt : Quad → Quad → Quad
  /-- The first times the second, plus the third. -/
  mulAdd : Quad → Quad → Quad → Quad
  /-- A comparison for every predicate number. -/
  compare : UInt8 → Quad → Quad → Quad
  packSigned : Quad → Quad → Quad
  packUnsigned : Quad → Quad → Quad
  add_comm : ∀ x y, add x y = add y x
  mul_comm : ∀ x y, mul x y = mul y x
  addInt_comm : ∀ x y, addInt x y = addInt y x
  mulInt_comm : ∀ x y, mulInt x y = mulInt y x

/-- Lane by lane on words, with comparisons and packs that tell their sources apart. -/
def BlockOps.words : BlockOps where
  add x y i := x i + y i
  sub x y i := x i - y i
  mul x y i := x i * y i
  addInt x y i := x i + y i
  mulInt x y i := x i * y i
  mulAdd x y z i := x i * y i + z i
  compare n x y i := if (x i).toNat ≤ (y i).toNat then 0 else n.toUInt32
  packSigned x y i := if i.val < 2 then x i else y i
  packUnsigned x y i := if i.val < 2 then x i else y i
  add_comm x y := funext fun i => UInt32.add_comm (x i) (y i)
  mul_comm x y := funext fun i => UInt32.mul_comm (x i) (y i)
  addInt_comm x y := funext fun i => UInt32.add_comm (x i) (y i)
  mulInt_comm x y := funext fun i => UInt32.mul_comm (x i) (y i)

/-- How many comparison predicates a form has. The widest one compares into mask registers. -/
def X86.Form.predicates (f : Form) : UInt8 := if f.keeps then 8 else if f.lanes ≤ 8 then 32 else 0

variable (ops : BlockOps)

/-- What an opcode makes of a block of the destination and of those of two sources. The legacy
family has no multiply-add. -/
def X86.Opcode.combine? (op : X86.Opcode) (f : Form) (imm : Option UInt8) :
    Option (Quad → Quad → Quad → Quad) :=
  match op.pp, op.map, op.byte, imm with
  | .none, .m0F, 0x58, none => some fun _ => ops.add
  | .none, .m0F, 0x5C, none => some fun _ => ops.sub
  | .none, .m0F, 0x59, none => some fun _ => ops.mul
  | .p66, .m0F, 0xFE, none => some fun _ => ops.addInt
  | .p66, .m0F38, 0x40, none => some fun _ => ops.mulInt
  | .p66, .m0F, 0x6B, none => some fun _ => ops.packSigned
  | .p66, .m0F, 0x67, none => some fun _ => ops.packUnsigned
  | .none, .m0F, 0xC2, some n => if n < f.predicates then some fun _ => ops.compare n else none
  | .p66, .m0F38, 0xA8, none => if f.keeps then none else some fun d x y => ops.mulAdd d x y
  | .p66, .m0F38, 0xB8, none => if f.keeps then none else some fun d x y => ops.mulAdd x y d
  | _, _, _, _ => none

/-- What a word of AArch64 with three registers makes of their blocks. -/
def Arm64.combine? (w : UInt32) : Option (Quad → Quad → Quad → Quad) :=
  match Arm64.bits w 21 11, Arm64.bits w 10 6 with
  | 0x271, 0x35 => some fun _ => ops.add
  | 0x275, 0x35 => some fun _ => ops.sub
  | 0x371, 0x37 => some fun _ => ops.mul
  | 0x275, 0x21 => some fun _ => ops.addInt
  | 0x271, 0x33 => some fun d x y => ops.mulAdd x y d
  | 0x275, 0x07 => some fun _ x y i => x i ||| y i
  | _, _ => none

/-- The form of the AArch64 instructions on four lanes. -/
def Arm64.form : Form := ⟨4, false⟩

namespace Registers

variable (r : Registers)

/-- A register is written up to the width of the form, and beyond it as the form has it. -/
def write (f : Form) (d : Vreg) (value : Fin 4 → Quad) : Registers := fun v q =>
  if v = d then if 4 * q.val < f.lanes then value q else if f.keeps then r v q else fun _ => 0
  else r v q

/-- A vector instruction between registers. A copy wants its first source field empty. -/
def perform? (f : Form) (op : X86.Opcode) (d first second : UInt8) (imm : Option UInt8) :
    Option Registers :=
  if op = movaps then
    if imm = none ∧ (f.keeps ∨ first = 0) then some (r.write f ⟨d⟩ (r ⟨second⟩)) else none
  else
    (op.combine? ops f imm).map fun g =>
      r.write f ⟨d⟩ fun q => g (r ⟨d⟩ q) (r ⟨first⟩ q) (r ⟨second⟩ q)

def step? : Fetched → Option Registers
  | .x86 (.plain (.sse op d (.reg b) imm)) => r.perform? ops .legacy op d d b imm
  | .x86 (.plain (.vex op false l256 d a (.reg b) imm)) => r.perform? ops (.vex l256) op d a b imm
  | .x86 (.plain (.evex op false d a (.reg b) imm)) => r.perform? ops .evex op d a b imm
  | .word w =>
    (Arm64.combine? ops w).map fun g =>
      let at' := fun lo => r (Arm64.vregAt w lo)
      r.write Arm64.form (Arm64.vregAt w 0) fun q => g (at' 0 q) (at' 5 q) (at' 16 q)
  | _ => none

/-- A stretch of code from its first byte to its last. -/
def run? (t : Target) (code : List UInt8) : Option Registers :=
  (t.fetchAll? code).bind fun is => is.foldlM (step? ops) r

end Registers

-- ---------------------------------------------------------------------------
-- Runs
-- ---------------------------------------------------------------------------

/-- Code that takes `r` to `r'`, whatever follows it. -/
def Takes (t : Target) (code : List UInt8) (r r' : Registers) : Prop :=
  ∃ is, t.Fetches code is ∧ is.foldlM (Registers.step? ops) r = some r'

namespace Takes

variable {ops} {t : Target} {code code' : List UInt8} {r r' r'' : Registers}

theorem nil : Takes ops t [] r r := Target.Carries.nil

theorem append (h : Takes ops t code r r') (h' : Takes ops t code' r' r'') :
    Takes ops t (code ++ code') r r'' := Target.Carries.append h h'

theorem run (h : Takes ops t code r r') : r.run? ops t code = some r' := Target.Carries.run h

theorem x86 (ht : t.isX86) {i : X86.Instr} (hi : i.Regular) (hclean : (Emission.x86 i).Clean)
    (h : r.step? ops (.x86 (.plain i)) = some r') :
    Takes ops t (Emission.x86 i).bytes r r' := by
  refine Target.Carries.one (Target.fetches_x86 ht (hi.decodes hclean)) ?_
  rwa [hi.canonical]

theorem word (ht : t.isX86 = false) {w : UInt32} (h : r.step? ops (.word w) = some r') :
    Takes ops t (le32 w) r r' :=
  Target.Carries.one (Target.fetches_word ht w) h

end Takes

-- ---------------------------------------------------------------------------
-- Writing one register
-- ---------------------------------------------------------------------------

/-- The low `n` lanes of `d` are those of `value`, and no register has changed but `d` and, if there
is one, `x`. -/
structure Sets (n : Nat) (x : Option Vreg) (d : Vreg) (value : Fin 4 → Quad) (r r' : Registers) :
    Prop where
  low : ∀ q : Fin 4, 4 * q.val < n → r' d q = value q
  others : ∀ v, v ≠ d → some v ≠ x → r' v = r v

section

variable {n : Nat} {x : Option Vreg} {d : Vreg} {value value' : Fin 4 → Quad} {r r' : Registers}

theorem sets_write {f : Form} (hf : f.lanes = n) : Sets n x d value r (r.write f d value) where
  low q hq := by simp [Registers.write, hf, hq]
  others v hv _ := by
    funext q
    simp [Registers.write, hv]

theorem Sets.congr (h : Sets n x d value r r')
    (heq : ∀ q : Fin 4, 4 * q.val < n → value q = value' q) : Sets n x d value' r r' :=
  ⟨fun q hq => (h.low q hq).trans (heq q hq), h.others⟩

end

/-- Emissions that set `d` to what `value` makes of the registers, up to the width of the table, and
may overwrite `x`. -/
def OpTable.SetsTo (t : OpTable) (x : Option Vreg) (es : List Emission) (d : Vreg)
    (value : Registers → Fin 4 → Quad) : Prop :=
  ∀ r : Registers, ∃ r', Takes ops t.target (blockBytes es) r r' ∧
    Sets t.len.lanes x d (value r) r r'

/-- What the first part leaves in its register is there for the second one to read. -/
theorem OpTable.SetsTo.append {ops : BlockOps} {t : OpTable} {x : Option Vreg}
    {es fs : List Emission} {c d : Vreg} {first second value : Registers → Fin 4 → Quad}
    (h : t.SetsTo ops none es c first) (hc : c = d ∨ some c = x)
    (h' : t.SetsTo ops x fs d second)
    (hvalue : ∀ r u, Sets t.len.lanes none c (first r) r u →
      ∀ q : Fin 4, 4 * q.val < t.len.lanes → second u q = value r q) :
    t.SetsTo ops x (es ++ fs) d value := by
  intro r
  obtain ⟨u, hu, hsets⟩ := h r
  obtain ⟨v, hv, hsets'⟩ := h' u
  refine ⟨v, blockBytes_append es fs ▸ hu.append hv, ?_, fun w hw hx => ?_⟩
  · exact (hsets'.congr (hvalue r u hsets)).low
  · have hwc : w ≠ c := by
      rintro rfl
      exact hc.elim hw hx
    rw [hsets'.others w hw hx, hsets.others w hwc (by simp)]

-- ---------------------------------------------------------------------------
-- Single instructions
-- ---------------------------------------------------------------------------

namespace OpTable

variable {ops} {t : OpTable} {x : Option Vreg} {op : VecOp} {low : Lowering} {d a b : Vreg}
  {imm : Option UInt8}

theorem native_setsTo (ht : t.target.isX86) (h : t.Native low)
    (himm : imm.isSome = X86.takesImm (op.opcode low)) (hcopy : op.opcode low ≠ movaps)
    {g : Quad → Quad → Quad → Quad} (hg : (op.opcode low).combine? ops (t.form low) imm = some g)
    (hclean : ∀ e ∈ t.native op low d a (.reg b) imm, e.Clean) :
    t.SetsTo ops x (t.native op low d a (.reg b) imm) d fun r q =>
      g (r d q) (r ⟨first low d a⟩ q) (r b q) := by
  intro r
  refine ⟨_, ?_, sets_write (lanes_form h)⟩
  have hregular : ∀ i : X86.Instr, .x86 i ∈ t.native op low d a (.reg b) imm → i.Regular :=
    fun i hi => native_regular himm hi
  cases low with
  | legacy | vex | evex =>
    simp only [native, blockBytes_cons, blockBytes_nil, List.append_nil, X86.Rm.ofSource,
      form] at *
    refine .x86 ht (hregular _ List.mem_cons_self) (hclean _ List.mem_cons_self) ?_
    simp [Registers.step?, Registers.perform?, hcopy, hg, first]
  | _ => exact h.elim

/-- The lowering of plain arithmetic goes by the width, and below 512 bits by AVX. -/
theorem base_cases (t : OpTable) :
    t.baseLowering = .legacy ∧ t.len ≠ .v512 ∨ t.baseLowering = .vex ∧ t.len ≠ .v512 ∧ t.vex ∨
      t.baseLowering = .evex ∧ t.len = .v512 := by
  unfold baseLowering
  cases t.len <;> cases t.vex <;> simp

/-- A copy in the form of the plain arithmetic, whether or not the table has such a form. -/
theorem move_takes (ht : t.target.isX86) (hne : d ≠ a) (hclean : ∀ e ∈ t.move d a, e.Clean)
    (r : Registers) : Takes ops t.target (blockBytes (t.move d a)) r
      (r.write (t.form t.baseLowering) d (r a)) := by
  simp only [move, hne, ht, ↓reduceIte] at hclean ⊢
  rcases t.base_cases with ⟨hlow, -⟩ | ⟨hlow, -⟩ | ⟨hlow, -⟩
  all_goals
    simp only [hlow, blockBytes_cons, blockBytes_nil, List.append_nil] at hclean ⊢
    refine .x86 ht ?_ (hclean _ List.mem_cons_self) ?_
    · simp +decide [X86.Instr.Regular, X86.Opcode.IsEscape]
    · simp [Registers.step?, Registers.perform?, form, X86.Form.legacy]

theorem move_setsTo (ht : t.target.isX86) (h : t.Native t.baseLowering)
    (hclean : ∀ e ∈ t.move d a, e.Clean) : t.SetsTo ops x (t.move d a) d fun r => r a := by
  intro r
  by_cases hd : d = a
  · subst hd
    simp only [move, ↓reduceIte]
    exact ⟨r, .nil, fun _ _ => rfl, fun _ _ _ => rfl⟩
  · exact ⟨_, move_takes ht hd hclean r, sets_write (lanes_form h)⟩

end OpTable

-- ---------------------------------------------------------------------------
-- Words of AArch64
-- ---------------------------------------------------------------------------

namespace Arm64

/-- The fields of a word with three registers on top of `high`, which lies above them, and `low`,
which lies between the first two and the last. -/
theorem bits_vec3 {high low : UInt32} {d n m : Vreg} (hhigh : high.toNat % 2 ^ 21 = 0)
    (hlow : low.toNat < 2 ^ 16 ∧ low.toNat % 2 ^ 10 = 0) (hd : d.num ≤ 31) (hn : n.num ≤ 31)
    (hm : m.num ≤ 31) :
    let w := high ||| low ||| vregField m <<< 16 ||| vregField n <<< 5 ||| vregField d
    bits w 21 11 = high.toNat / 2 ^ 21 ∧ bits w 10 6 = low.toNat / 2 ^ 10 ∧ vregAt w 0 = d ∧
      vregAt w 5 = n ∧ vregAt w 16 = m := by
  intro w
  have hlt := high.toNat_lt
  have hbase : (high ||| low).toNat = high.toNat + low.toNat :=
    toNat_or_low 21 hhigh (by omega)
  have hempty : bits (high ||| low) 0 5 = 0 ∧ bits (high ||| low) 5 5 = 0 ∧
      bits (high ||| low) 16 5 = 0 := by
    unfold bits
    omega
  obtain ⟨htop, hmid, hlast, hfirst, hsecond⟩ :=
    bits_three (w := w) hempty (vregField_lt d) (vregField_lt n) (vregField_lt m) rfl
  refine ⟨htop.trans ?_, hmid.trans ?_, vregAt_field hd hlast, vregAt_field hn hfirst,
    vregAt_field hm hsecond⟩
  all_goals
    unfold bits
    omega

theorem v3_clean {base : UInt32} {d n m : Vreg} (h : (Emission.arm (.v3 base d n m)).Clean) :
    d.num ≤ 31 ∧ n.num ≤ 31 ∧ m.num ≤ 31 := by
  have hfaults := one_clean.mp h
  simp only [List.forall_mem_cons, vregFault_none] at hfaults
  exact ⟨hfaults.1, hfaults.2.1, hfaults.2.2.1⟩

end Arm64

/-- A base that leaves room for three registers, and whose words do `g`. -/
def Arm64.Combining (ops : BlockOps) (base : UInt32) (g : Quad → Quad → Quad → Quad) : Prop :=
  ∃ high low : UInt32, base = high ||| low ∧ high.toNat % 2 ^ 21 = 0 ∧
    (low.toNat < 2 ^ 16 ∧ low.toNat % 2 ^ 10 = 0) ∧
    ∀ w, Arm64.bits w 21 11 = high.toNat / 2 ^ 21 → Arm64.bits w 10 6 = low.toNat / 2 ^ 10 →
      Arm64.combine? ops w = some g

namespace OpTable

variable {ops : BlockOps} {t : OpTable} {x : Option Vreg} {op : VecOp} {low : Lowering}

theorem v3_takes (ht : t.target.isX86 = false) {base : UInt32} {g : Quad → Quad → Quad → Quad}
    (hg : Arm64.Combining ops base g) {d a b : Vreg}
    (hclean : (Emission.arm (.v3 base d a b)).Clean) (r : Registers) :
    Takes ops t.target (blockBytes [.arm (.v3 base d a b)]) r
      (r.write Arm64.form d fun q => g (r d q) (r a q) (r b q)) := by
  obtain ⟨high, low, rfl, hhigh, hlow, hg⟩ := hg
  obtain ⟨hd, ha, hb⟩ := Arm64.v3_clean hclean
  obtain ⟨htop, hmid, hd', ha', hb'⟩ := Arm64.bits_vec3 hhigh hlow hd ha hb
  have hbytes : blockBytes [.arm (.v3 (high ||| low) d a b)] = le32 (high ||| low |||
      Arm64.vregField b <<< 16 ||| Arm64.vregField a <<< 5 ||| Arm64.vregField d) := by
    simp [Emission.bytes, Arm64.Instr.chunk, Arm64.vec3, Arm64.one]
  rw [hbytes]
  refine .word ht ?_
  simp [Registers.step?, hg _ htop hmid, hd', ha', hb']

theorem v3_setsTo (ht : t.target.isX86 = false) (hlen : t.len = .v128) {base : UInt32}
    {g : Quad → Quad → Quad → Quad} (hg : Arm64.Combining ops base g) {d a b : Vreg}
    (hclean : (Emission.arm (.v3 base d a b)).Clean) :
    t.SetsTo ops x [.arm (.v3 base d a b)] d fun r q => g (r d q) (r a q) (r b q) := by
  intro r
  have hlanes : Arm64.form.lanes = t.len.lanes := by rw [hlen]; rfl
  exact ⟨_, v3_takes ht hg hclean r, sets_write hlanes⟩

theorem lowering_arm (ht : t.target.isX86 = false) (h : t.lowering? op = some low) :
    low = .asimd ∧ t.len = .v128 ∧ t.caps.contains .asimd := by
  simp only [lowering?, ht, Bool.false_eq_true, ↓reduceIte, VecOp.lowerAsimd] at h
  split at h
  · cases h
  · rename_i hhas
    simp only [ne_eq, Bool.not_eq_true', not_or, Decidable.not_not, Bool.not_eq_false] at hhas
    refine ⟨?_, hhas.1, hhas.2⟩
    cases op <;> first | exact (Option.some.inj h).symm | cases h

end OpTable

end JitGemm
