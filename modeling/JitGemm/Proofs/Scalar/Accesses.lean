import JitGemm.Generator.Vector
import JitGemm.Proofs.Scalar.Offsets
import JitGemm.Proofs.Vector.Registers
import JitGemm.Proofs.X86.Scalar

/-!
# Accesses to memory

Loads, stores and broadcasts, from and to general and vector registers, read or write memory at the
address that their operand stands for, and nowhere else, whichever way the operand is encoded.
-/

namespace JitGemm

-- ---------------------------------------------------------------------------
-- Accesses
-- ---------------------------------------------------------------------------

inductive Access where
  | loadGpr (d : Gpr)
  | storeGpr (r : Gpr)
  | load (d : Vreg)
  | intLoad (d : Vreg)
  | store (v : Vreg)
  | intStore (v : Vreg)
  | broadcast (d : Vreg)
  deriving DecidableEq, Repr

def Generator.access (g : Generator) (m : Address) : Access → Generator
  | .loadGpr d => g.scalar (.load d m)
  | .storeGpr r => g.scalar (.store m r)
  | .load d => g.vector (.load d m)
  | .intLoad d => g.vector (.intLoad d m)
  | .store v => g.vector (.store m v)
  | .intStore v => g.vector (.intStore m v)
  | .broadcast d => g.vector (.broadcast d m)

namespace Access

def code (t : OpTable) (m : Address) : Access → List Emission
  | loadGpr d => t.target.scalar (.load d m)
  | storeGpr r => t.target.scalar (.store m r)
  | load d => t.vector (.load d m)
  | intLoad d => t.vector (.intLoad d m)
  | store v => t.vector (.store m v)
  | intStore v => t.vector (.intStore m v)
  | broadcast d => t.vector (.broadcast d m)

theorem access_eq (g : Generator) (m : Address) (a : Access) :
    g.access m a = g.emit (a.code g.table m) := by
  cases a <;> rfl

def gpr? : Access → Option Gpr
  | loadGpr d => some d
  | storeGpr r => some r
  | _ => none

/-- The general register that is written. Number 31 is none here: what is loaded there is lost. -/
def writesGpr : Access → Option Gpr
  | loadGpr d => if d = .sp then none else some d
  | _ => none

def writesVreg : Access → Option Vreg
  | load d | intLoad d | broadcast d => some d
  | _ => none

/-- What an access at `loc` does with vector registers of `n` lanes. Number 31 stores a zero. -/
def Effect (K : Core) (n : Nat) (loc : UInt64) (s s' : K.State) : Access → Prop
  | loadGpr d => K.mem s' = K.mem s ∧ (d ≠ .sp → K.reg s' d = (K.mem s).read64 loc)
  | storeGpr r => K.mem s' = (K.mem s).write64 loc (if r = .sp then 0 else K.reg s r)
  | load d | intLoad d =>
    K.mem s' = K.mem s ∧ ∀ j < n, K.word s' d j = (K.mem s).read32 (loc + UInt64.ofNat (4 * j))
  | store v | intStore v => K.mem s' = (K.mem s).writeWords loc n (K.word s v)
  | broadcast d => K.mem s' = K.mem s ∧ ∀ j < n, K.word s' d j = (K.mem s).read32 loc

/-- An access at `loc`, and nothing else but a change of register `x`, if there is one, and of lanes
from `n` up. -/
structure Done (a : Access) (K : Core) (n : Nat) (x : Option Gpr) (loc : UInt64)
    (s s' : K.State) : Prop where
  effect : a.Effect K n loc s s'
  gpr : ∀ q, some q ≠ a.writesGpr → some q ≠ x → K.reg s' q = K.reg s q
  vreg : ∀ v, some v ≠ a.writesVreg → ∀ j < n, K.word s' v j = K.word s v j

/-- What comes before an access may change `x`, as long as the access does not move it. -/
theorem Done.after {a : Access} {K : Core} {n : Nat} {x : Option Gpr} {loc : UInt64}
    {s u s' : K.State} (hk : K.Keeps x s u) (ha : ∀ r, a.gpr? = some r → some r ≠ x)
    (h : a.Done K n x loc u s') : a.Done K n x loc s s' where
  effect := by
    have heffect := h.effect
    cases a with
    | storeGpr r =>
      have hkept := hk.reg r (ha r rfl)
      simpa only [Effect, hk.mem, hkept] using heffect
    | _ => simpa only [Effect, hk.mem, hk.word] using heffect
  gpr q hq hx := (h.gpr q hq hx).trans (hk.reg q hx)
  vreg v hv j hj := by rw [h.vreg v hv j hj, hk.word]

end Access

-- ---------------------------------------------------------------------------
-- x86-64
-- ---------------------------------------------------------------------------

namespace X86

variable {ar : Arith UInt32} {t : OpTable} {m : Address} {x : Option Gpr}

theorem word_agree {n : Nat} (hn : n ≤ 16) {s v : Machine} (h : Agree n none s v) (r : Vreg)
    {j : Nat} (hj : j < n) : s.word r j = v.word r j := by
  have hlane : (laneOf j).val = j := Nat.mod_eq_of_lt (Nat.lt_of_lt_of_le hj hn)
  exact h.vec r (by simp) (laneOf j) (hlane.symm ▸ hj)

theorem lanesAt_laneOf (s : Machine) (a : UInt64) {j : Nat} (hj : j < 16) :
    s.lanesAt a (laneOf j) = s.mem.read32 (a + UInt64.ofNat (4 * j)) := by
  have hlane : (laneOf j).val = j := Nat.mod_eq_of_lt hj
  rw [Machine.lanesAt, hlane]

/-- An operation on vector registers does what its effect says to the lanes of the table. -/
theorem done_of_does (ht : t.target.isX86) {a : Access} {f : Machine → Machine}
    (h : Does ar t none (a.code t m) f) (s : Machine)
    (hf : a.Done (core ar) t.len.lanes x (s.address m) s (f s)) :
    ∃ s', t.target.Carries (core ar).step? (blockBytes (a.code t m)) s s' ∧
      a.Done (core ar) t.len.lanes x (s.address m) s s' := by
  obtain ⟨s', hblock, hagree⟩ := h.run s s (.refl _ _ s)
  have hword := fun r j hj => word_agree (OpTable.lanes_le t.len) hagree r (j := j) hj
  refine ⟨s', carries_block ht h.decodes hblock, ?_, fun q hq hx => ?_, fun v hv j hj => ?_⟩
  · have heffect := hf.effect
    cases a with
    | loadGpr d =>
      exact ⟨hagree.mem.trans heffect.1, fun hd =>
        (congrFun hagree.gpr d).trans (heffect.2 hd)⟩
    | load d | intLoad d | broadcast d =>
      exact ⟨hagree.mem.trans heffect.1, fun j hj => (hword d j hj).trans (heffect.2 j hj)⟩
    | storeGpr r | store v | intStore v => exact hagree.mem.trans heffect
  · exact (congrFun hagree.gpr q).trans (hf.gpr q hq hx)
  · exact (hword v j hj).trans (hf.vreg v hv j hj)

theorem done_set {a : Access} {d : Vreg} (ha : a.writesVreg = some d) {n : Nat} {loc : UInt64}
    {lanes : Fin 16 → UInt32} {s : Machine}
    (h : a.Effect (core ar) n loc s (s.set d lanes)) :
    a.Done (core ar) n x loc s (s.set d lanes) where
  effect := h
  gpr _ _ _ := rfl
  vreg v hv j _ := by
    have hne : v ≠ d := by
      rintro rfl
      exact hv ha.symm
    show (s.set d lanes).word v j = s.word v j
    simp [Machine.word, hne]

theorem word_loaded (s : Machine) (d : Vreg) (loc : UInt64) {j : Nat} (hj : j < 16) :
    (s.set d (s.lanesAt loc)).word d j = s.mem.read32 (loc + UInt64.ofNat (4 * j)) := by
  rw [Machine.word, Machine.set_vec, if_pos rfl, lanesAt_laneOf s loc hj]

theorem loadGpr_done (ht : t.target.isX86) {d : Gpr} (hm : checkAddress m = .ok ())
    (hd : d.num ≤ 15) (s : Machine) :
    ∃ s', t.target.Carries (core ar).step? (blockBytes ((Access.loadGpr d).code t m)) s s' ∧
      (Access.loadGpr d).Done (core ar) t.len.lanes x (s.address m) s s' := by
  have hcode : (Access.loadGpr d).code t m = [.x86 (.load d m)] := by
    simp [Access.code, Target.scalar, Target.loadGpr, ht]
  rw [hcode]
  refine ⟨s.setGpr d (s.mem.read64 (s.address m)),
    carries_block ht (by simpa using .integer (i := .load d m) ⟨hd, hm⟩) rfl,
    ⟨rfl, fun _ => if_pos rfl⟩, fun q hq _ => if_neg ?_, fun _ _ _ _ => rfl⟩
  rintro rfl
  have hsp : q ≠ .sp := by
    rintro rfl
    exact absurd hd (by decide)
  exact hq (if_neg hsp).symm

theorem storeGpr_done (ht : t.target.isX86) {r : Gpr} (hm : checkAddress m = .ok ())
    (hr : r.num ≤ 15) (s : Machine) :
    ∃ s', t.target.Carries (core ar).step? (blockBytes ((Access.storeGpr r).code t m)) s s' ∧
      (Access.storeGpr r).Done (core ar) t.len.lanes x (s.address m) s s' := by
  have hsp : r ≠ .sp := by
    rintro rfl
    exact absurd hr (by decide)
  have hcode : (Access.storeGpr r).code t m = [.x86 (.store m r)] := by
    simp [Access.code, Target.scalar, Target.storeGpr, ht]
  rw [hcode]
  refine ⟨{ s with mem := s.mem.write64 (s.address m) (s.gpr r) },
    carries_block ht (by simpa using .integer (i := .store m r) ⟨hr, hm⟩) rfl,
    ?_, fun _ _ _ => rfl, fun _ _ _ _ => rfl⟩
  simp [Access.Effect, core, hsp]

theorem access_done (ht : t.target.isX86) {a : Access} (hm : checkAddress m = .ok ())
    (ha : ∀ r, a.gpr? = some r → t.target.HasGpr r) (hclean : ∀ e ∈ a.code t m, e.Clean)
    (s : Machine) :
    ∃ s', t.target.Carries (core ar).step? (blockBytes (a.code t m)) s s' ∧
      a.Done (core ar) t.len.lanes x (s.address m) s s' := by
  have hlanes : ∀ (d : Vreg) (j : Nat), j < t.len.lanes →
      (s.set d (s.lanesAt (s.address m))).word d j =
        s.mem.read32 (s.address m + UInt64.ofNat (4 * j)) := fun d j hj =>
    word_loaded s d _ (Nat.lt_of_lt_of_le hj (OpTable.lanes_le t.len))
  cases a with
  | loadGpr d => exact loadGpr_done ht hm ((ha d rfl).x86 ht) s
  | storeGpr r => exact storeGpr_done ht hm ((ha r rfl).x86 ht) s
  | load d =>
    refine done_of_does ht (OpTable.does_load ht (.inl rfl) hclean) s ?_
    exact done_set rfl ⟨rfl, hlanes d⟩
  | intLoad d =>
    refine done_of_does ht (OpTable.does_load ht (.inr rfl) hclean) s ?_
    exact done_set rfl ⟨rfl, hlanes d⟩
  | store v =>
    refine done_of_does ht (OpTable.does_storeTo ht (.inl rfl) (by simp) hclean) s ?_
    exact ⟨rfl, fun _ _ _ => rfl, fun _ _ _ _ => rfl⟩
  | intStore v =>
    refine done_of_does ht (OpTable.does_storeTo ht (.inr rfl) (by simp) hclean) s ?_
    exact ⟨rfl, fun _ _ _ => rfl, fun _ _ _ _ => rfl⟩
  | broadcast d =>
    refine done_of_does ht (OpTable.does_broadcasts ht (.inl rfl) (by simp) hclean) s ?_
    refine done_set rfl ⟨rfl, fun j _ => ?_⟩
    show (s.set d _).word d j = _
    rw [Machine.word, Machine.set_vec, if_pos rfl]
    rfl

end X86

-- ---------------------------------------------------------------------------
-- AArch64
-- ---------------------------------------------------------------------------

theorem Target.eq_aarch64 {t : Target} (ht : t.isX86 = false) : t = .aarch64 := by
  cases t <;> first | rfl | cases ht

namespace Access

/-- The instruction that accesses what lies `disp` past `base`. A broadcast has no displacement. -/
def instr (base : Gpr) (disp : Int32) : Access → Arm64.Instr
  | loadGpr d => .ldr d base disp
  | storeGpr r => .str r base disp
  | load d | intLoad d => .ldrQ d base disp
  | store v | intStore v => .strQ v base disp
  | broadcast d => .ld1r4s d base

/-- Base and displacement of that instruction, after what it takes to form them. -/
def formed (m : Address) : Access → List Emission × Gpr × Int32
  | loadGpr _ | storeGpr _ => Target.aarch64.armAddress m 8
  | load _ | intLoad _ | store _ | intStore _ => Target.aarch64.armAddress m 16
  | broadcast _ =>
    if m.disp == 0 && m.index.isNone then ([], m.base, 0)
    else (OpTable.armFormAddress .x16 m, .x16, 0)

/-- An operation of the table that leaves no error has an encoding, in four lanes. -/
theorem lowering_of_clean {t : OpTable} (ht : t.target.isX86 = false) (op : VecOp)
    {es : List Emission} (hes : t.lowering? op = none → es = [t.noEncoding op])
    (hclean : ∀ e ∈ es, e.Clean) : t.lowering? op = some .asimd ∧ t.len.lanes = 4 := by
  obtain ⟨low, hlow⟩ := t.exists_lowering op hes hclean
  obtain ⟨rfl, hlen, -⟩ := OpTable.lowering_arm ht hlow
  exact ⟨hlow, by rw [hlen]; rfl⟩

theorem code_arm {t : OpTable} {m : Address} {a : Access} (ht : t.target.isX86 = false)
    (hclean : ∀ e ∈ a.code t m, e.Clean) :
    a.code t m = (a.formed m).1 ++ [.arm (a.instr (a.formed m).2.1 (a.formed m).2.2)] ∧
      (a.gpr? = none → t.len.lanes = 4) := by
  have htarget := Target.eq_aarch64 ht
  have hunary : ∀ op d, (∀ e ∈ t.unary op d (.mem m) none, e.Clean) →
      t.unary op d (.mem m) none = t.armUnary op d (.mem m) ∧ t.len.lanes = 4 :=
    fun op d hclean => by
      obtain ⟨hlow, hlanes⟩ := lowering_of_clean ht op (fun h => by rw [OpTable.unary, h]) hclean
      exact ⟨by rw [OpTable.unary, hlow], hlanes⟩
  have hstore : ∀ op v, (∀ e ∈ t.storeTo op m v, e.Clean) →
      t.storeTo op m v = t.armStore m v ∧ t.len.lanes = 4 := fun op v hclean => by
    obtain ⟨hlow, hlanes⟩ := lowering_of_clean ht op (fun h => by rw [OpTable.storeTo, h]) hclean
    exact ⟨by rw [OpTable.storeTo, hlow], hlanes⟩
  cases a with
  | loadGpr d | storeGpr r =>
    refine ⟨?_, fun h => by cases h⟩
    simp [code, Target.scalar, Target.loadGpr, Target.storeGpr, htarget, Target.isX86, formed,
      instr]
  | load d | intLoad d =>
    obtain ⟨hcode, hlanes⟩ := hunary _ _ hclean
    refine ⟨hcode.trans ?_, fun _ => hlanes⟩
    rw [OpTable.armUnary, OpTable.armLoad, htarget]
    rfl
  | broadcast d =>
    obtain ⟨hcode, hlanes⟩ := hunary _ _ hclean
    refine ⟨hcode.trans ?_, fun _ => hlanes⟩
    rw [OpTable.armUnary, OpTable.armBroadcast, formed, htarget]
    split <;> rfl
  | store v | intStore v =>
    obtain ⟨hcode, hlanes⟩ := hstore _ _ hclean
    refine ⟨hcode.trans ?_, fun _ => hlanes⟩
    rw [OpTable.armStore, htarget]
    rfl

end Access

namespace Arm64

theorem sets_far {n : Gpr} (hn : n.num ≤ 31) (hne : n ≠ .x16) (w : UInt64) (s : Machine) :
    ∃ u : Machine, Target.aarch64.Carries core.step?
        (JitGemm.blockBytes [.arm (.movImm .x16 w), .arm (.add .x16 n .x16)]) s u ∧
      core.Sets (some .x16) .x16 (s.reg n + w) s u := by
  obtain ⟨(v : Machine), hv, hmove⟩ := sets_movImm (d := .x16) (by decide) (by decide) w s
  have hreg : v.reg n = s.reg n := by
    by_cases hsp : n = .sp
    · simp [Machine.reg, hsp]
    · rw [Machine.reg_eq_base hsp, Machine.reg_eq_base hsp]
      exact hmove.others n hne (by simp)
  have hvalue : v.reg .x16 = w := (Machine.reg_eq_base (by decide)).trans hmove.value
  have hexec : v.exec (.add .x16 n .x16) = some (v.setBase .x16 (s.reg n + w)) := by
    rw [← Machine.setReg_eq_setBase (by decide), ← hreg, ← hvalue]
    rfl
  obtain ⟨u, hu, hadd⟩ := sets_instr (decodes_add (by decide) hn (by decide)) hexec
  refine ⟨u, ?_, hmove.hide.trans (.inl rfl) hadd.hide⟩
  simpa [Emission.bytes] using hv.append hu

theorem Machine.offset_zero : Machine.offset 0 = 0 := by decide

theorem address_eq {m : Address} (h : m.index = none) (s : Machine) :
    core.address s m = s.base m.base + Machine.offset m.disp := by
  simp [Core.address, h, core, Machine.offset]

/-- Emissions that change nothing but the scratch register, and then a base and a displacement that
add up to where `m` was. -/
def Locates (m : Address) (p : List Emission × Gpr × Int32) : Prop :=
  ∀ s : Machine, ∃ u : Machine,
    Target.aarch64.Carries core.step? (JitGemm.blockBytes p.1) s u ∧
      core.Keeps (some .x16) s u ∧ u.base p.2.1 + Machine.offset p.2.2 = core.address s m

variable {m : Address}

theorem locates_here (hindex : m.index = none) : Locates m ([], m.base, m.disp) := fun s =>
  ⟨s, .nil, Core.Keeps.refl (K := core) _ s, (address_eq hindex s).symm⟩

/-- What is added in the scratch register needs no displacement. -/
theorem locates_sum (hindex : m.index = none) {es : List Emission}
    (h : ∀ s : Machine, ∃ u : Machine,
      Target.aarch64.Carries core.step? (JitGemm.blockBytes es) s u ∧
        core.Sets (some .x16) .x16 (s.base m.base + Machine.offset m.disp) s u) :
    Locates m (es, .x16, 0) := fun s => by
  obtain ⟨u, hu, hsets⟩ := h s
  have hvalue : u.base .x16 = s.base m.base + Machine.offset m.disp := hsets.value
  refine ⟨u, hu, hsets.keeps, ?_⟩
  rw [address_eq hindex, hvalue, Machine.offset_zero, UInt64.add_zero]

theorem locates_far (hindex : m.index = none) (hle : m.base.num ≤ 31) (hsp : m.base ≠ .sp)
    (hne : m.base ≠ .x16) :
    Locates m ([.arm (.movImm .x16 m.disp.toInt64.toUInt64), .arm (.add .x16 m.base .x16)],
      .x16, 0) :=
  locates_sum hindex fun s => by
    obtain ⟨u, hu, hsets⟩ := sets_far hle hne m.disp.toInt64.toUInt64 s
    exact ⟨u, hu, Machine.reg_eq_base hsp ▸ hsets⟩

/-- Twelve bits hold a displacement that is not negative and not above 4095. -/
theorem toUInt32_near {disp : Int32} (hlo : 0 ≤ disp) (hhi : disp ≤ 0xFFF) :
    disp.toUInt32 ≤ 0xFFF := by
  have hnat : disp.toUInt32.toNat = disp.toInt.toNat := Int32.toNat_toUInt32_of_le hlo
  rw [UInt32.le_iff_toNat_le, hnat]
  have hint := Int32.le_iff_toInt_le.mp hhi
  have hmost : (0xFFF : Int32).toInt = 0xFFF := rfl
  have hmostNat : (0xFFF : UInt32).toNat = 0xFFF := rfl
  omega

theorem locates_near (hindex : m.index = none) (hle : m.base.num ≤ 31) (hlo : 0 ≤ m.disp)
    (hhi : m.disp ≤ 0xFFF) :
    Locates m ([.arm (.addImm .x16 m.base m.disp.toUInt32)], .x16, 0) :=
  locates_sum hindex fun s => by
    have hnat : m.disp.toUInt32.toNat = m.disp.toInt.toNat := Int32.toNat_toUInt32_of_le hlo
    have himm : m.disp.toUInt32 ≤ 0xFFF := toUInt32_near hlo hhi
    have hword : m.disp.toUInt32.toUInt64 = Machine.offset m.disp := by
      apply UInt64.toNat_inj.mp
      rw [UInt32.toNat_toUInt64, hnat, Machine.offset, Int64.toNat_toUInt64_of_le]
      · rw [Int64.toNatClampNeg, Int32.toInt_toInt64]
      · rw [Int64.le_iff_toInt_le, Int32.toInt_toInt64]
        exact Int32.le_iff_toInt_le.mp hlo
    have hdecodes := decodes_addImm (d := .x16) (by decide) hle himm
    obtain ⟨u, hu, hsets⟩ := sets_instr hdecodes (s := s) rfl
    exact ⟨u, by simpa [Emission.bytes] using hu, hword ▸ hsets.hide⟩

theorem armAddress_locates {size : Int32} (hm : m.base ≠ .x16 ∨ m.disp = 0)
    (hzero : fitsScaled 0 size) (hclean : ∀ e ∈ (Target.aarch64.armAddress m size).1, e.Clean) :
    Locates m (Target.aarch64.armAddress m size) := by
  have hne : ¬ fitsScaled m.disp size → m.base ≠ .x16 := fun hfits =>
    hm.resolve_right fun h => hfits (h ▸ hzero)
  have hscratch : Target.aarch64.scratchGpr = .x16 := rfl
  revert hclean
  simp only [Target.armAddress, hscratch]
  split
  · exact fun hclean => (hclean _ (List.mem_singleton_self _)).elim
  rename_i hindex
  replace hindex : m.index = none := Option.not_isSome_iff_eq_none.mp hindex
  split
  · exact fun _ => locates_here hindex
  rename_i hfits
  split
  · exact fun hclean => (hclean _ (List.mem_singleton_self _)).elim
  rename_i hsp
  intro hclean
  obtain ⟨-, hle, -⟩ :=
    rrr_clean.mp (hclean _ (List.mem_cons_of_mem _ (List.mem_singleton_self _)))
  exact locates_far hindex hle hsp (hne hfits)

theorem armAddress_clean {size : Int32} (hindex : m.index = none)
    (hb : m.base.num ≤ 31 ∧ m.base ≠ .sp) (hzero : fitsScaled 0 size) :
    (∀ e ∈ (Target.aarch64.armAddress m size).1, e.Clean) ∧
      (Target.aarch64.armAddress m size).2.1.num ≤ 31 ∧
        fitsScaled (Target.aarch64.armAddress m size).2.2 size := by
  have hscratch : Target.aarch64.scratchGpr = .x16 := rfl
  simp only [Target.armAddress, hindex, Option.isSome_none, Bool.false_eq_true, if_false, hb.2,
    hscratch]
  split
  · rename_i hfits
    exact ⟨by simp, hb.1, hfits⟩
  · have hle : Gpr.x16.num ≤ 31 := by decide
    refine ⟨?_, hle, hzero⟩
    have hmove : (Emission.arm (.movImm .x16 m.disp.toInt64.toUInt64)).Clean :=
      gprFault_none.mpr hle
    have hadd : (Emission.arm (.add .x16 m.base .x16)).Clean :=
      rrr_clean.mpr ⟨hle, hb.1, hle⟩
    simp [hmove, hadd]

/-- Past the stack pointer an address is formed for broadcasts only, in an immediate addition. -/
theorem formed_locates {a : Access} (hm : m.base ≠ .x16 ∨ m.disp = 0)
    (hnear : ∀ d, a = .broadcast d → m.base = .sp → 0 ≤ m.disp ∧ m.disp ≤ 0xFFF)
    (hclean : ∀ e ∈ (a.formed m).1, e.Clean) : Locates m (a.formed m) := by
  cases a with
  | broadcast d =>
    revert hclean
    simp only [Access.formed]
    split
    · rename_i hhere
      simp only [Bool.and_eq_true, beq_iff_eq, Option.isNone_iff_eq_none] at hhere
      exact fun _ => hhere.1 ▸ locates_here hhere.2
    rename_i hhere
    unfold OpTable.armFormAddress
    split
    · exact fun hclean => (hclean _ (List.mem_singleton_self _)).elim
    rename_i hindex
    replace hindex : m.index = none := Option.not_isSome_iff_eq_none.mp hindex
    split
    · rename_i hfits
      simp only [Bool.and_eq_true, decide_eq_true_eq] at hfits
      intro hclean
      obtain ⟨-, -, hle⟩ := imm12_clean.mp (hclean _ (List.mem_singleton_self _))
      exact locates_near hindex hle hfits.1 hfits.2
    · rename_i hfar
      intro hclean
      have hsp : m.base ≠ .sp := fun h => hfar (by simpa using hnear d rfl h)
      obtain ⟨-, hle, -⟩ :=
        rrr_clean.mp (hclean _ (List.mem_cons_of_mem _ (List.mem_singleton_self _)))
      refine locates_far hindex hle hsp (hm.resolve_right fun h => ?_)
      exact hhere (by simp [h, hindex])
  | _ => exact armAddress_locates hm rfl hclean

section

variable {n : Nat} {x : Option Gpr} {base : Gpr} {disp : Int32}

theorem lanes_loaded (s : Machine) (d : Vreg) (loc : UInt64) {j : Nat} (hj : j < 4) :
    (s.setVec d (s.lanesAt loc 4)).lanes d j = s.mem.read32 (loc + UInt64.ofNat (4 * j)) := by
  have hlane : j % 4 = j := Nat.mod_eq_of_lt hj
  simp [Machine.lanes, Machine.setVec, Machine.lanesAt, hlane, hj]

theorem lanes_others (s : Machine) {d v : Vreg} (hv : some v ≠ some d) (lanes : Fin 4 → UInt32) :
    (s.setVec d lanes).lanes v = s.lanes v := by
  have hne : v ≠ d := fun h => hv (congrArg some h)
  funext j
  simp [Machine.lanes, Machine.setVec, hne]

/-- What is loaded to number 31 is lost. -/
theorem ldr_done {d : Gpr} (hclean : (Instr.ldr d base disp).chunk.fault = none) (s : Machine) :
    ∃ s' : Machine,
      Target.aarch64.Carries core.step? (Instr.ldr d base disp).chunk.bytes s s' ∧
        (Access.loadGpr d).Done core n x (s.base base + Machine.offset disp) s s' := by
  obtain ⟨hd, hfits, hbase⟩ := scaled_clean.mp hclean
  have hdecodes := decodes_ldr (gprFault_none.mp hd) hbase hfits
  by_cases hsp : d = .sp
  · refine ⟨s, carries_instr hdecodes ?_, ⟨rfl, absurd hsp⟩, fun _ _ _ => rfl, fun _ _ _ _ => rfl⟩
    rw [Machine.exec, Machine.setReg, if_pos hsp]
  · have hsets := sets_setBase s d (s.mem.read64 (s.base base + Machine.offset disp))
    refine ⟨_, carries_instr hdecodes ?_, ⟨hsets.mem, fun _ => hsets.value⟩, fun q hq _ => ?_,
      fun v _ j _ => congrFun (congrFun hsets.word v) j⟩
    · rw [Machine.exec, Machine.setReg_eq_setBase hsp]
    · refine hsets.others q ?_ (by simp)
      rintro rfl
      exact hq (if_neg hsp).symm

theorem ld1r_done {d : Vreg} (hclean : (Instr.ld1r4s d base).chunk.fault = none) (s : Machine) :
    ∃ s' : Machine, Target.aarch64.Carries core.step? (Instr.ld1r4s d base).chunk.bytes s s' ∧
      (Access.broadcast d).Done core 4 x (s.base base) s s' := by
  have hfaults := one_clean.mp hclean
  simp only [List.forall_mem_cons, vregFault_none, gprFault_none] at hfaults
  obtain ⟨hkind, hd, hbase, hnone⟩ := bits_ld1r4s hfaults.1 hfaults.2.1 rfl
  refine ⟨s.setVec d fun _ => s.mem.read32 (s.base base),
    .one (Target.fetches_word rfl _) ?_, ⟨rfl, fun j _ => ?_⟩, fun _ _ _ => rfl,
    fun v hv j _ => congrFun (lanes_others s hv _) j⟩
  · simp [core, Machine.step?, hnone, hkind, hd, hbase]
  · simp [core, Machine.lanes, Machine.setVec]

theorem instr_done {a : Access} (hclean : (a.instr base disp).chunk.fault = none)
    (hn : a.gpr? = none → n = 4) (hdisp : ∀ d, a = .broadcast d → disp = 0) (s : Machine) :
    ∃ s' : Machine, Target.aarch64.Carries core.step? (a.instr base disp).chunk.bytes s s' ∧
      a.Done core n x (s.base base + Machine.offset disp) s s' := by
  cases a with
  | loadGpr d => exact ldr_done hclean s
  | storeGpr r =>
    obtain ⟨hr, hfits, hbase⟩ := scaled_clean.mp hclean
    refine ⟨_, carries_instr (decodes_str (gprFault_none.mp hr) hbase hfits) rfl, ?_,
      fun _ _ _ => rfl, fun _ _ _ _ => rfl⟩
    have hreg : s.reg r = if r = .sp then 0 else s.base r := by
      by_cases hsp : r = .sp
      · rw [Machine.reg, if_pos hsp, if_pos hsp]
      · rw [if_neg hsp, Machine.reg_eq_base hsp]
    exact congrArg (s.mem.write64 _) hreg
  | load d | intLoad d =>
    obtain ⟨hd, hfits, hbase⟩ := scaled_clean.mp hclean
    obtain rfl := hn rfl
    exact ⟨_, carries_instr (decodes_ldrQ (vregFault_none.mp hd) hbase hfits) rfl,
      ⟨rfl, fun _ hj => lanes_loaded s d _ hj⟩, fun _ _ _ => rfl,
      fun v hv j _ => congrFun (lanes_others s hv _) j⟩
  | store v | intStore v =>
    obtain ⟨hv, hfits, hbase⟩ := scaled_clean.mp hclean
    obtain rfl := hn rfl
    exact ⟨_, carries_instr (decodes_strQ (vregFault_none.mp hv) hbase hfits) rfl,
      rfl, fun _ _ _ => rfl, fun _ _ _ _ => rfl⟩
  | broadcast d =>
    obtain rfl := hn rfl
    obtain rfl := hdisp d rfl
    rw [Machine.offset_zero, UInt64.add_zero]
    exact ld1r_done hclean s

end

theorem access_done {t : OpTable} (ht : t.target.isX86 = false) {m : Address} {a : Access}
    (hm : m.base ≠ .x16 ∨ m.disp = 0)
    (hnear : ∀ d, a = .broadcast d → m.base = .sp → 0 ≤ m.disp ∧ m.disp ≤ 0xFFF)
    (ha : ∀ r, a.gpr? = some r → some r ≠ some .x16) (hclean : ∀ e ∈ a.code t m, e.Clean)
    (s : Machine) :
    ∃ s' : Machine,
      Target.aarch64.Carries core.step? (JitGemm.blockBytes (a.code t m)) s s' ∧
        a.Done core t.len.lanes (some .x16) (core.address s m) s s' := by
  obtain ⟨hcode, hlanes⟩ := Access.code_arm ht hclean
  rw [hcode] at hclean ⊢
  have hbefore := (List.forall_mem_append.mp hclean).1
  have hinstr := (List.forall_mem_append.mp hclean).2 _ (List.mem_singleton_self _)
  obtain ⟨u, hu, hkept, hloc⟩ := formed_locates hm hnear hbefore s
  have hdisp : ∀ d, a = .broadcast d → (a.formed m).2.2 = 0 := by
    rintro d rfl
    unfold Access.formed
    dsimp only
    split <;> rfl
  obtain ⟨s', hs', hdone⟩ := instr_done hinstr hlanes hdisp u
  rw [hloc] at hdone
  refine ⟨s', ?_, hdone.after hkept ha⟩
  rw [blockBytes_append]
  exact hu.append (by simpa [Emission.bytes] using hs')

end Arm64

-- ---------------------------------------------------------------------------
-- Both architectures
-- ---------------------------------------------------------------------------

namespace Access

variable {t : OpTable} {m : Address} {a : Access}

/-- An access to an operand that does not move on the way, by registers that do not either. -/
theorem runs (ar : Arith UInt32) (hm : t.target.Accessible m)
    (ha : ∀ r, a.gpr? = some r → t.target.HasGpr r ∧ r ≠ t.target.scratchGpr)
    (hclean : ∀ e ∈ a.code t m, e.Clean) (s : (t.target.core ar).State) :
    ∃ s', t.target.Carries (t.target.core ar).step? (blockBytes (a.code t m)) s s' ∧
      a.Done (t.target.core ar) t.len.lanes (some t.target.scratchGpr)
        ((t.target.core ar).address s m) s s' := by
  obtain ⟨target, len, caps⟩ := t
  cases target with
  | sysV | win64 =>
    exact X86.access_done rfl (by simpa [Target.Accessible, Target.isX86] using hm)
      (fun r hr => (ha r hr).1) hclean s
  | aarch64 =>
    obtain ⟨-, hb, hfixed⟩ : m.index = none ∧ Target.aarch64.HasGpr m.base ∧
      (m.base ≠ Target.aarch64.scratchGpr ∨ m.disp = 0) := by
        simpa [Target.Accessible, Target.isX86] using hm
    exact Arm64.access_done rfl hfixed (fun _ _ hsp => absurd hsp (hb.arm rfl).2)
      (fun r hr h => (ha r hr).2 (Option.some.inj h)) hclean s

theorem clean_of_gpr (hm : t.target.Accessible m) {r : Gpr} (hr : a.gpr? = some r)
    (ha : t.target.HasGpr r) : ∀ e ∈ a.code t m, e.Clean := by
  cases ht : t.target.isX86 with
  | true =>
    have hchecked : X86.checkAddress m = .ok () := by simpa [Target.Accessible, ht] using hm
    have hle := ha.x86 ht
    cases a with
    | loadGpr d | storeGpr d =>
      obtain rfl := Option.some.inj hr
      simp only [code, Target.scalar, Target.loadGpr, Target.storeGpr, ht, if_true,
        List.forall_mem_singleton]
      exact X86.fault_integer ⟨hle, hchecked⟩
    | _ => cases hr
  | false =>
    obtain ⟨hindex, hb, -⟩ : m.index = none ∧ t.target.HasGpr m.base ∧
      (m.base ≠ t.target.scratchGpr ∨ m.disp = 0) := by simpa [Target.Accessible, ht] using hm
    have hzero : Arm64.fitsScaled 0 8 := rfl
    obtain ⟨hbefore, hbase, hfits⟩ := Arm64.armAddress_clean hindex (hb.arm ht) hzero
    have htarget := Target.eq_aarch64 ht
    have hle := (ha.arm ht).1
    cases a with
    | loadGpr d | storeGpr d =>
      obtain rfl := Option.some.inj hr
      simp only [code, Target.scalar, Target.loadGpr, Target.storeGpr, htarget]
      refine List.forall_mem_append.mpr ⟨hbefore, List.forall_mem_singleton.mpr ?_⟩
      exact Arm64.scaled_clean.mpr ⟨Arm64.gprFault_none.mpr hle, hfits, hbase⟩
    | _ => cases hr

end Access

end JitGemm
