import JitGemm.Generator.Vector
import JitGemm.Proofs.X86.Blocks
import JitGemm.Tile.Value

/-!
# Lane operations at run time

What the code of a lane operation does under every lowering of x86-64. Two machines agree when they
differ only in the scratch register and in lanes above the width of the table; an operation does
what its effect says up to that.
-/

namespace JitGemm

open X86 (Machine Form Rm VectorKind)

-- ---------------------------------------------------------------------------
-- Code without errors
-- ---------------------------------------------------------------------------

def Emission.Clean : Emission → Prop
  | x86 i => i.chunk.fault = none
  | arm i => i.chunk.fault = none
  | fail _ => False

instance (e : Emission) : Decidable e.Clean :=
  match e with
  | .x86 i => inferInstanceAs (Decidable (i.chunk.fault = none))
  | .arm i => inferInstanceAs (Decidable (i.chunk.fault = none))
  | .fail _ => inferInstanceAs (Decidable False)

namespace X86

theorem fault_ofExcept {r : Except OperandFault (List UInt8)}
    (h : (Code.Chunk.ofExcept r).fault = none) : ∃ bytes, r = .ok bytes := by
  cases r with
  | ok bytes => exact ⟨bytes, rfl⟩
  | error e => cases h

/-- The shape of the three vector encoders. -/
theorem checked_ok {refused : Bool} {e : OperandFault} {rm : Rm} {bytes out : List UInt8}
    (h : (do
      if refused then throw e
      checkRm rm
      return bytes : Except OperandFault (List UInt8)) = .ok out) :
    refused = false ∧ checkRm rm = .ok () := by
  cases refused with
  | true => cases h
  | false =>
    cases hrm : checkRm rm with
    | ok => exact ⟨rfl, rfl⟩
    | error e => simp [hrm, bind, Except.bind] at h

section

variable {op : Opcode} {reg vvvv : UInt8} {rm : Rm} {imm : Option UInt8}

theorem sse_clean (h : (Instr.sse op reg rm imm).chunk.fault = none) :
    reg ≤ 15 ∧ regAbove 15 rm = false ∧ checkRm rm = .ok () := by
  obtain ⟨bytes, hbytes⟩ := fault_ofExcept h
  obtain ⟨hrefused, hrm⟩ := checked_ok hbytes
  simp only [Bool.or_eq_false_iff, decide_eq_false_iff_not, UInt8.not_lt] at hrefused
  exact ⟨hrefused.1, hrefused.2, hrm⟩

theorem vex_clean {w l256 : Bool} (h : (Instr.vex op w l256 reg vvvv rm imm).chunk.fault = none) :
    reg ≤ 15 ∧ vvvv ≤ 15 ∧ regAbove 15 rm = false ∧ checkRm rm = .ok () := by
  obtain ⟨bytes, hbytes⟩ := fault_ofExcept h
  obtain ⟨hrefused, hrm⟩ := checked_ok hbytes
  simp only [Bool.or_eq_false_iff, decide_eq_false_iff_not, UInt8.not_lt] at hrefused
  exact ⟨hrefused.1.1, hrefused.1.2, hrefused.2, hrm⟩

theorem evex_clean {w : Bool} (h : (Instr.evex op w reg vvvv rm imm).chunk.fault = none) :
    reg ≤ 31 ∧ vvvv ≤ 31 ∧ regAbove 31 rm = false ∧ checkRm rm = .ok () := by
  obtain ⟨bytes, hbytes⟩ := fault_ofExcept h
  obtain ⟨hrefused, hrm⟩ := checked_ok hbytes
  simp only [Bool.or_eq_false_iff, decide_eq_false_iff_not, UInt8.not_lt] at hrefused
  exact ⟨hrefused.1.1, hrefused.1.2, hrefused.2, hrm⟩

-- the bytes of clean vector code are read back

variable {k : VectorKind}

theorem decodes_sse_clean (hk : op.kind? = some k) (himm : imm.isSome = k.wantsImm)
    (h : (Emission.x86 (.sse op reg rm imm)).Clean) :
    (Emission.x86 (.sse op reg rm imm)).Decodes := by
  obtain ⟨hreg, hrm, haddr⟩ := sse_clean h
  exact decodes_sse hk himm hreg hrm haddr

theorem decodes_vex_clean {w l256 : Bool} (hk : op.kind? = some k)
    (himm : imm.isSome = k.wantsImm)
    (h : (Emission.x86 (.vex op w l256 reg vvvv rm imm)).Clean) :
    (Emission.x86 (.vex op w l256 reg vvvv rm imm)).Decodes := by
  obtain ⟨hreg, hv, hrm, haddr⟩ := vex_clean h
  exact decodes_vex hk himm w l256 hreg hv hrm haddr

theorem decodes_evex_clean {w : Bool} (hk : op.kind? = some k) (himm : imm.isSome = k.wantsImm)
    (h : (Emission.x86 (.evex op w reg vvvv rm imm)).Clean) :
    (Emission.x86 (.evex op w reg vvvv rm imm)).Decodes := by
  obtain ⟨hreg, hv, hrm, haddr⟩ := evex_clean h
  exact decodes_evex hk himm w hreg hv hrm haddr

end

end X86

-- ---------------------------------------------------------------------------
-- Which lowerings there are
-- ---------------------------------------------------------------------------

namespace OpTable

/-- A lowering to single instructions of the width of the table. -/
def Native (t : OpTable) : Lowering → Prop
  | .legacy => t.len = .v128 ∧ t.vex = false
  | .vex => t.len ≠ .v512
  | .evex => t.len = .v512
  | _ => False

/-- The form of a native lowering. -/
def form (t : OpTable) : Lowering → Form
  | .legacy => .legacy
  | .vex => .vex (t.len = .v256)
  | _ => .evex

theorem lanes_form {t : OpTable} {low : Lowering} (h : t.Native low) :
    (t.form low).lanes = t.len.lanes := by
  cases low with
  | legacy => simp [form, Form.legacy, h.1, VecLen.lanes, VecLen.bytes]
  | vex =>
    cases hlen : t.len with
    | v128 | v256 => simp [form, Form.vex, hlen, VecLen.lanes, VecLen.bytes]
    | v512 => exact absurd hlen h
  | evex =>
    have hlen : t.len = .v512 := h
    simp [form, Form.evex, hlen, VecLen.lanes, VecLen.bytes]
  | _ => exact h.elim

/-- Operations with sequences in place of a single instruction. -/
def Synthesizes (op : VecOp) : Prop :=
  op.isFma ∨ op = .broadcastFromMem ∨ op = .broadcastFromReg ∨ op = .broadcastD

theorem lowering_native {t : OpTable} (ht : t.target.isX86) {op : VecOp} {low : Lowering}
    (h : t.lowering? op = some low) :
    (t.Native low ∨ low = .synthesized) ∧ t.Native t.baseLowering ∧
      (low = .synthesized → Synthesizes op) ∧ (low = .legacy → ¬ Synthesizes op) := by
  rcases t with ⟨target, len, caps⟩
  have hx86 : target.isX86 = true := ht
  simp only [lowering?, hx86, ↓reduceIte] at h
  cases len with
  | v128 =>
    delta VecOp.lower128 at h
    cases havx : caps.contains .avx <;> cases op <;>
      simp [VecOp.isFma, VecOp.fmaLowering, havx] at h <;> (try replace h := h.2) <;>
      (try split at h) <;> subst h <;>
      simp [Native, Synthesizes, VecOp.isFma, baseLowering, vex, hx86, havx]
  | v256 =>
    delta VecOp.lower256 at h
    cases havx : caps.contains .avx <;> cases op <;>
      simp [VecOp.isFma, VecOp.needsAvx2, VecOp.fmaLowering, havx] at h <;>
      (try replace h := h.2) <;> (try split at h) <;> subst h <;>
      simp [Native, Synthesizes, VecOp.isFma, baseLowering, vex, hx86, havx]
  | v512 =>
    delta VecOp.lower512 at h
    cases op <;> simp at h <;> obtain ⟨-, h⟩ := h <;> (try replace h := h.2) <;> subst h <;>
      simp [Native, baseLowering]

/-- An operation without a sequence has an instruction of its own. -/
theorem native_of_lowering {t : OpTable} (ht : t.target.isX86) {op : VecOp} {low : Lowering}
    (h : t.lowering? op = some low) (hop : ¬ Synthesizes op) : t.Native low := by
  obtain ⟨hnative, -, hsynthesizes, -⟩ := lowering_native ht h
  exact hnative.resolve_right fun hlow => hop (hsynthesizes hlow)

theorem lowering_ne_asimd {t : OpTable} (ht : t.target.isX86) {op : VecOp} {low : Lowering}
    (h : t.lowering? op = some low) : low ≠ .asimd := by
  obtain ⟨hnative, -⟩ := lowering_native ht h
  rintro rfl
  exact (hnative.resolve_right (by simp)).elim

end OpTable

-- ---------------------------------------------------------------------------
-- Agreement
-- ---------------------------------------------------------------------------

/-- The same but for lanes from `n` up and for register `x`, if there is one. The zero flag may
differ. -/
structure Agree (n : Nat) (x : Option Vreg) (s v : Machine) : Prop where
  gpr : s.gpr = v.gpr
  vec : ∀ r, some r ≠ x → ∀ i : Fin 16, i.val < n → s.vec r i = v.vec r i
  mem : s.mem = v.mem

def X86.Machine.set (s : Machine) (d : Vreg) (lanes : Fin 16 → UInt32) : Machine :=
  { s with vec := fun r => if r = d then lanes else s.vec r }

namespace X86.Machine

variable (s : Machine) (d : Vreg) (lanes : Fin 16 → UInt32)

@[simp] theorem set_gpr : (s.set d lanes).gpr = s.gpr := rfl

@[simp] theorem set_mem : (s.set d lanes).mem = s.mem := rfl

@[simp] theorem set_address (a : Address) : (s.set d lanes).address a = s.address a := rfl

@[simp] theorem set_lanesAt (a : UInt64) : (s.set d lanes).lanesAt a = s.lanesAt a := rfl

@[simp] theorem set_vec (r : Vreg) :
    (s.set d lanes).vec r = if r = d then lanes else s.vec r := rfl

@[simp] theorem set_set (lanes' : Fin 16 → UInt32) :
    (s.set d lanes).set d lanes' = s.set d lanes' := by
  simp only [set, mk.injEq, true_and, and_true]
  funext r
  split <;> rfl

theorem set_self : s.set d (s.vec d) = s := by
  rcases s with ⟨gpr, vec, zf, mem⟩
  simp only [set, mk.injEq, true_and, and_true]
  funext r
  split
  · rename_i h
    rw [h]
  · rfl

end X86.Machine

namespace Agree

variable {n : Nat} {x : Option Vreg} {s v : Machine}

theorem refl (n : Nat) (x : Option Vreg) (s : Machine) : Agree n x s s :=
  ⟨rfl, fun _ _ _ _ => rfl, rfl⟩

theorem address (h : Agree n x s v) (a : Address) : s.address a = v.address a := by
  simp [Machine.address, h.gpr]

theorem lanesAt (h : Agree n x s v) (a : UInt64) (i : Fin 16) : s.lanesAt a i = v.lanesAt a i := by
  simp [Machine.lanesAt, h.mem]

theorem source_mem (h : Agree n x s v) (a : Address) (i : Fin 16) :
    s.source (.mem a) i = v.lanesAt (v.address a) i := by
  rw [Machine.source, h.address, h.lanesAt]

/-- The low lane of an operand in memory is the word it begins with. -/
theorem source_low (h : Agree n x s v) (a : Address) :
    s.source (.mem a) (X86.laneOf 0) = v.mem.read32 (v.address a) := by
  rw [h.source_mem]
  simp [Machine.lanesAt, X86.laneOf]

theorem set (h : Agree n x s v) {f : Form} (hf : f.lanes = n) {d : Vreg} {g g' : Fin 16 → UInt32}
    (hg : ∀ i : Fin 16, i.val < n → g i = g' i) : Agree n x (s.setVec f d.num g) (v.set d g') where
  gpr := h.gpr
  vec r hr i hi := by
    by_cases hrd : r = d
    · simp [Machine.setVec, Machine.set, hrd, hf, hi, hg]
    · simp [Machine.setVec, Machine.set, hrd, h.vec r hr i hi]
  mem := h.mem

theorem store (h : Agree n x s v) {f : Form} (hf : f.lanes = n) (hn : n ≤ 16) {r : Vreg}
    (hr : some r ≠ x) (a : UInt64) :
    Agree n x (s.storeVec f a (s.vec r))
      { v with mem := v.mem.writeWords a n fun i => v.vec r (X86.laneOf i) } where
  gpr := h.gpr
  vec := h.vec
  mem := by
    rw [Machine.storeVec_mem, h.mem, hf]
    refine X86.Memory.writeWords_congr fun i hi => h.vec r hr _ ?_
    simpa [X86.laneOf, Nat.mod_eq_of_lt (Nat.lt_of_lt_of_le hi hn)] using hi

end Agree

/-- Does what `effect` says, and its bytes are read back. -/
structure Does (ar : Arith UInt32) (t : OpTable) (x : Option Vreg) (es : List Emission)
    (effect : Machine → Machine) : Prop where
  decodes : ∀ e ∈ es, e.Decodes
  run : ∀ s v, Agree t.len.lanes x s v →
    ∃ s', s.block ar es = some s' ∧ Agree t.len.lanes x s' (effect v)

namespace Does

variable {ar : Arith UInt32} {t : OpTable} {x : Option Vreg} {es fs : List Emission}
  {f g : Machine → Machine}

theorem nil : Does ar t x [] id where
  decodes := by simp
  run s v h := ⟨s, rfl, h⟩

theorem append (h : Does ar t x es f) (h' : Does ar t x fs g) :
    Does ar t x (es ++ fs) fun v => g (f v) where
  decodes e he := (List.mem_append.mp he).elim (h.decodes e) (h'.decodes e)
  run s v hs := by
    obtain ⟨u, hu, hagree⟩ := h.run s v hs
    obtain ⟨w, hw, hagree'⟩ := h'.run u _ hagree
    exact ⟨w, Machine.block_append hu hw, hagree'⟩

theorem flatMap {α : Type} {l : List α} {block : α → List Emission}
    {effect : α → Machine → Machine} (h : ∀ a ∈ l, Does ar t x (block a) (effect a)) :
    Does ar t x (l.flatMap block) fun v => l.foldl (fun v a => effect a v) v := by
  induction l with
  | nil => exact .nil
  | cons a l ih =>
    rw [List.flatMap_cons]
    exact (h a List.mem_cons_self).append (ih fun b hb => h b (List.mem_cons_of_mem _ hb))

end Does

-- ---------------------------------------------------------------------------
-- Single instructions
-- ---------------------------------------------------------------------------

namespace OpTable

variable {ar : Arith UInt32} {t : OpTable} {x : Option Vreg} {op : VecOp} {low : Lowering}
  {d a : Vreg} {b : VecSource} {imm : Option UInt8}

/-- The first source as the instruction has it: the legacy family takes the destination. -/
def first (low : Lowering) (d a : Vreg) : UInt8 := if low = .legacy then d.num else a.num

theorem block_native (h : t.Native low) (s : Machine) :
    s.block ar (t.native op low d a b imm) =
      s.vector ar (t.form low) (op.opcode low) d.num (first low d a) (.ofSource b) imm := by
  cases low with
  | legacy | vex | evex => simp [native, Machine.block, Machine.exec, form, first]
  | _ => exact h.elim

theorem decodes_native (h : t.Native low) {k : VectorKind} (hk : (op.opcode low).kind? = some k)
    (himm : imm.isSome = k.wantsImm) (hclean : ∀ e ∈ t.native op low d a b imm, e.Clean) :
    ∀ e ∈ t.native op low d a b imm, e.Decodes := by
  cases low with
  | legacy | vex | evex =>
    intro e he
    have hclean := hclean e he
    obtain rfl := List.mem_singleton.mp he
    first
    | exact X86.decodes_sse_clean hk himm hclean
    | exact X86.decodes_vex_clean hk himm hclean
    | exact X86.decodes_evex_clean hk himm hclean
  | _ => exact h.elim

theorem does_native (h : t.Native low) {k : VectorKind} (hk : (op.opcode low).kind? = some k)
    (himm : imm.isSome = k.wantsImm) (hclean : ∀ e ∈ t.native op low d a b imm, e.Clean)
    {f : Machine → Machine}
    (hrun : ∀ s v, Agree t.len.lanes x s v → ∃ s',
      s.vector ar (t.form low) (op.opcode low) d.num (first low d a) (.ofSource b) imm = some s' ∧
        Agree t.len.lanes x s' (f v)) :
    Does ar t x (t.native op low d a b imm) f where
  decodes := decodes_native h hk himm hclean
  run s v hs := by
    rw [block_native h]
    exact hrun s v hs

/-- An operand that is not there is encoded as the instructions want it. -/
theorem no_first (h : t.Native low) : ((t.form low).keeps || first low d ⟨0⟩ == 0) = true := by
  cases low with
  | legacy | vex | evex => rfl
  | _ => exact h.elim

theorem does_move (h : t.Native low) (hk : (op.opcode low).kind? = some .move) {m : Address}
    (hclean : ∀ e ∈ t.native op low d ⟨0⟩ (.mem m) none, e.Clean) :
    Does ar t x (t.native op low d ⟨0⟩ (.mem m) none) fun v => v.set d (v.lanesAt (v.address m)) :=
  does_native h hk rfl hclean fun s v hs =>
    ⟨s.setVec (t.form low) d.num (s.source (.mem m)),
      by simp only [Machine.vector_plain hk rfl, Machine.perform, no_first h, ↓reduceIte,
        Rm.ofSource],
      hs.set (lanes_form h) fun i _ => hs.source_mem m i⟩

theorem lanes_le (len : VecLen) : len.lanes ≤ 16 := by cases len <;> decide

theorem does_store (h : t.Native low) (hk : (op.opcode low).kind? = some .store) {m : Address}
    (hd : some d ≠ x) (hclean : ∀ e ∈ t.native op low d ⟨0⟩ (.mem m) none, e.Clean) :
    Does ar t x (t.native op low d ⟨0⟩ (.mem m) none) fun v =>
      { v with mem := v.mem.writeWords (v.address m) t.len.lanes fun i =>
          v.vec d (X86.laneOf i) } :=
  does_native h hk rfl hclean fun s v hs =>
    ⟨s.storeVec (t.form low) (v.address m) (s.vec d),
      by simp only [Machine.vector_plain hk rfl, Machine.perform, Rm.ofSource, no_first h,
        ↓reduceIte, hs.address],
      hs.store (lanes_form h) (lanes_le _) hd _⟩

/-- Broadcasts have no legacy form. -/
theorem does_broadcast (h : t.Native low) (hlow : low ≠ .legacy)
    (hk : (op.opcode low).kind? = some .broadcast) {m : Address}
    (hclean : ∀ e ∈ t.native op low d ⟨0⟩ (.mem m) none, e.Clean) :
    Does ar t x (t.native op low d ⟨0⟩ (.mem m) none) fun v =>
      v.set d fun _ => v.mem.read32 (v.address m) := by
  have hnew : (!(t.form low).keeps && first low d ⟨0⟩ == 0) = true := by
    cases low with
    | vex | evex => rfl
    | legacy => exact absurd rfl hlow
    | _ => exact h.elim
  exact does_native h hk rfl hclean fun s v hs =>
    ⟨s.setVec (t.form low) d.num fun _ => s.source (.mem m) (X86.laneOf 0),
      by simp only [Machine.vector_plain hk rfl, Machine.perform, hnew, ↓reduceIte, Rm.ofSource],
      hs.set (lanes_form h) fun _ _ => hs.source_low m⟩

theorem lane_wantsImm {k : VectorKind} {g : UInt32 → UInt32 → UInt32}
    (hg : k.lane? ar = some g) : k.wantsImm = false := by
  cases k <;> first | rfl | cases hg

theorem vector_lane {s : Machine} {f : Form} {opcode : X86.Opcode} {k : VectorKind}
    {g : UInt32 → UInt32 → UInt32} {rm : Rm} (hk : opcode.kind? = some k)
    (hg : k.lane? ar = some g) (hrm : s.aligned rm) (reg first : UInt8) :
    s.vector ar f opcode reg first rm none =
      some (s.setVec f reg fun i => g (s.vec ⟨first⟩ i) (s.source rm i)) := by
  rw [Machine.vector_plain hk (lane_wantsImm hg)]
  cases k <;> cases hg <;> simp [Machine.perform, VectorKind.lane?, hrm]

/-- A two-source operation whose first source is where the instruction has it. -/
theorem does_lane (h : t.Native low) {k : VectorKind} (hk : (op.opcode low).kind? = some k)
    {g : UInt32 → UInt32 → UInt32} (hg : k.lane? ar = some g) {c r : Vreg}
    (hfirst : first low d a = c.num) (hc : some c ≠ x) (hr : some r ≠ x)
    (hclean : ∀ e ∈ t.native op low d a (.reg r) none, e.Clean) :
    Does ar t x (t.native op low d a (.reg r) none) fun v =>
      v.set d fun i => g (v.vec c i) (v.vec r i) :=
  have himm : (none : Option UInt8).isSome = k.wantsImm := (lane_wantsImm hg).symm
  does_native h hk himm hclean fun s v hs =>
    ⟨s.setVec (t.form low) d.num fun i => g (s.vec c i) (s.vec r i),
      by rw [vector_lane hk hg rfl, hfirst]; rfl,
      hs.set (lanes_form h) fun i hi => by rw [hs.vec c hc i hi, hs.vec r hr i hi]⟩

theorem does_movaps (h : t.Native low) {r : Vreg} (hr : some r ≠ x) {i : X86.Instr}
    (hexec : ∀ s : Machine, s.exec ar i =
      s.vector ar (t.form low) movaps d.num (first low d ⟨0⟩) (.reg r.num) none)
    (hdecodes : (Emission.x86 i).Decodes) :
    Does ar t x [.x86 i] fun v => v.set d (v.vec r) where
  decodes e he := by
    obtain rfl := List.mem_singleton.mp he
    exact hdecodes
  run s v hs := by
    have hfirst := no_first (d := d) h
    refine ⟨s.setVec (t.form low) d.num (s.vec r), ?_, hs.set (lanes_form h) (hs.vec r hr)⟩
    have hkind : movaps.kind? = some .moveAligned := rfl
    simp [Machine.block, hexec, Machine.vector_plain hkind rfl, Machine.perform, hfirst,
      Machine.aligned, Machine.source]

theorem does_copy (h : t.Native t.baseLowering) (ht : t.target.isX86) {r : Vreg}
    (hr : some r ≠ x) (hclean : ∀ e ∈ t.move d r, e.Clean) :
    Does ar t x (t.move d r) fun v => v.set d (v.vec r) := by
  have hkind : movaps.kind? = some .moveAligned := rfl
  by_cases hd : d = r
  · subst hd
    simp only [move, ↓reduceIte]
    exact ⟨by simp, fun s v hs => ⟨s, rfl, by rwa [v.set_self]⟩⟩
  · simp only [move, hd, ht, ↓reduceIte] at hclean ⊢
    cases hlow : t.baseLowering with
    | legacy =>
      rw [hlow] at h hclean
      exact does_movaps h hr (fun _ => rfl)
        (X86.decodes_sse_clean hkind rfl (hclean _ List.mem_cons_self))
    | vex =>
      rw [hlow] at h hclean
      exact does_movaps h hr (fun _ => rfl)
        (X86.decodes_vex_clean hkind rfl (hclean _ List.mem_cons_self))
    | evex =>
      rw [hlow] at h hclean
      exact does_movaps h hr (fun _ => rfl)
        (X86.decodes_evex_clean hkind rfl (hclean _ List.mem_cons_self))
    | asimd | synthesized =>
      rw [hlow] at h
      exact h.elim

/-- The legacy form of a two-source operation on registers, the second not the destination. -/
theorem does_legacyBinary (h : t.Native .legacy) (hbase : t.baseLowering = .legacy)
    (ht : t.target.isX86) {k : VectorKind} (hk : (op.opcode .legacy).kind? = some k)
    {g : UInt32 → UInt32 → UInt32} (hg : k.lane? ar = some g) {r : Vreg} (hrd : r ≠ d)
    (hd : some d ≠ x) (ha : some a ≠ x) (hr : some r ≠ x)
    (hclean : ∀ e ∈ t.legacyBinary op d a (.reg r) none, e.Clean) :
    Does ar t x (t.legacyBinary op d a (.reg r) none) fun v =>
      v.set d fun i => g (v.vec a i) (v.vec r i) := by
  have hswap : ¬ (d ≠ a ∧ VecSource.reg r = .reg d) := by
    rintro ⟨-, heq⟩
    exact hrd (by injection heq)
  simp only [legacyBinary, hswap, ↓reduceIte] at hclean ⊢
  have hcopy : Does ar t x (t.move d a) _ := does_copy (hbase ▸ h) ht ha fun e he =>
    hclean e (List.mem_append_left _ he)
  have hlane := does_lane h hk hg (c := d) (a := ⟨0⟩) rfl hd hr fun e he =>
    hclean e (List.mem_append_right _ he)
  have hboth := hcopy.append hlane
  simpa [hrd] using hboth

-- ---------------------------------------------------------------------------
-- Operations
-- ---------------------------------------------------------------------------

theorem not_clean {op : VecOp} (h : ∀ e ∈ [t.noEncoding op], e.Clean) : False :=
  h _ List.mem_cons_self

theorem exists_lowering (t : OpTable) (op : VecOp) {es : List Emission}
    (hnone : t.lowering? op = none → es = [t.noEncoding op]) (hclean : ∀ e ∈ es, e.Clean) :
    ∃ low, t.lowering? op = some low := by
  cases hlow : t.lowering? op with
  | none => exact (not_clean (hnone hlow ▸ hclean)).elim
  | some low => exact ⟨low, rfl⟩

theorem base_legacy (h : t.Native .legacy) : t.baseLowering = .legacy := by
  simp [baseLowering, h.1, h.2]

/-- A two-source operation on registers, the second not the destination. -/
theorem does_binary (ht : t.target.isX86) (hop : ¬ Synthesizes op) {k : VectorKind}
    (hk : ∀ low, t.Native low → (op.opcode low).kind? = some k) {g : UInt32 → UInt32 → UInt32}
    (hg : k.lane? ar = some g) {r : Vreg} (hrd : r ≠ d) (hd : some d ≠ x)
    (ha : some a ≠ x) (hr : some r ≠ x)
    (hclean : ∀ e ∈ t.binary op d a (.reg r) none, e.Clean) :
    Does ar t x (t.binary op d a (.reg r) none) fun v =>
      v.set d fun i => g (v.vec a i) (v.vec r i) := by
  obtain ⟨low, hlow⟩ := t.exists_lowering op (fun h => by simp [binary, h]) hclean
  have hnative := native_of_lowering ht hlow hop
  simp only [binary, hlow] at hclean ⊢
  cases low with
  | legacy =>
    exact does_legacyBinary hnative (base_legacy hnative) ht (hk _ hnative) hg hrd hd ha hr hclean
  | vex | evex => exact does_lane hnative (hk _ hnative) hg rfl ha hr hclean
  | _ => exact hnative.elim

theorem does_arith (ht : t.target.isX86) (hbase : t.Native t.baseLowering) {k : VectorKind}
    (hk : ∀ low, t.Native low → (op.opcode low).kind? = some k) {g : UInt32 → UInt32 → UInt32}
    (hg : k.lane? ar = some g) {r : Vreg} (hrd : r ≠ d) (hd : some d ≠ x)
    (ha : some a ≠ x) (hr : some r ≠ x)
    (hclean : ∀ e ∈ t.arith op d a (.reg r), e.Clean) :
    Does ar t x (t.arith op d a (.reg r)) fun v =>
      v.set d fun i => g (v.vec a i) (v.vec r i) := by
  unfold arith at hclean ⊢
  cases hlow : t.baseLowering with
  | legacy =>
    rw [hlow] at hclean hbase
    exact does_legacyBinary hbase hlow ht (hk _ hbase) hg hrd hd ha hr hclean
  | vex | evex =>
    rw [hlow] at hclean hbase
    exact does_lane hbase (hk _ hbase) hg rfl ha hr hclean
  | asimd | synthesized =>
    rw [hlow] at hbase
    exact hbase.elim

/-- A product in the scratch register, then a sum. -/
theorem does_mulThenAdd (ht : t.target.isX86) (hbase : t.Native t.baseLowering) {r : Vreg}
    (hd : d ≠ t.scratchVreg) (ha : a ≠ t.scratchVreg) (hr : r ≠ t.scratchVreg)
    (hclean : ∀ e ∈ t.mulThenAdd .fmadd231 d a (.reg r), e.Clean) :
    Does ar t (some t.scratchVreg) (t.mulThenAdd .fmadd231 d a (.reg r)) fun v =>
      v.set d fun i => ar.add (v.vec d i) (ar.mul (v.vec a i) (v.vec r i)) := by
  -- both halves run with nothing hidden, since the sum reads the scratch register
  have hmul : Does ar t none (t.arith .mul t.scratchVreg a (.reg r)) _ := does_arith ht hbase
    (k := .mul) (fun _ _ => rfl) rfl hr (by simp) (by simp) (by simp)
    fun e he => hclean e (List.mem_append_left _ he)
  have hadd : Does ar t none (t.arith .add d d (.reg t.scratchVreg)) _ := does_arith ht hbase
    (k := .add) (fun _ _ => rfl) rfl hd.symm (by simp) (by simp) (by simp)
    fun e he => hclean e (List.mem_append_right _ he)
  have hboth := hmul.append hadd
  refine ⟨hboth.decodes, fun s v hs => ?_⟩
  obtain ⟨s', hblock, hagree⟩ := hboth.run s s (.refl _ _ s)
  refine ⟨s', hblock, hagree.gpr.trans hs.gpr, fun q hq i hi => ?_, hagree.mem.trans hs.mem⟩
  have hscratch : q ≠ t.scratchVreg := fun h => hq (congrArg some h)
  rw [hagree.vec q (by simp) i hi]
  by_cases hqd : q = d
  · have hfield : ∀ p, p ≠ t.scratchVreg → s.vec p i = v.vec p i := fun p hp =>
      hs.vec p (fun h => hp (Option.some.inj h)) i hi
    simp [hqd, hd, hfield d hd, hfield a ha, hfield r hr]
  · simp [hqd, hscratch, hs.vec q hq i hi]

/-- Whether products are added in one operation. -/
def fused (t : OpTable) : Bool := t.lowering? .fmadd231 ≠ some .synthesized

theorem does_mulAdd (h : t.Native low) (hlow : low ≠ .legacy) {r : Vreg} (hd : some d ≠ x)
    (ha : some a ≠ x) (hr : some r ≠ x)
    (hclean : ∀ e ∈ t.native .fmadd231 low d a (.reg r) none, e.Clean) :
    Does ar t x (t.native .fmadd231 low d a (.reg r) none) fun v =>
      v.set d fun i => ar.fma (v.vec a i) (v.vec r i) (v.vec d i) := by
  have hkind : (VecOp.fmadd231.opcode low).kind? = some .mulAdd := rfl
  have hform : (t.form low).keeps = false ∧ first low d a = a.num := by
    cases low with
    | vex | evex => exact ⟨rfl, rfl⟩
    | legacy => exact absurd rfl hlow
    | _ => exact h.elim
  refine does_native h hkind rfl hclean fun s v hs => ?_
  refine ⟨s.setVec (t.form low) d.num fun i => ar.fma (s.vec a i) (s.vec r i) (s.vec d i), ?_, ?_⟩
  · simp only [Machine.vector_plain hkind rfl, Machine.perform, hform, Rm.ofSource, Machine.source,
      Bool.false_eq_true, ↓reduceIte]
  · exact hs.set (lanes_form h) fun i hi => by
      rw [hs.vec a ha i hi, hs.vec r hr i hi, hs.vec d hd i hi]

theorem does_fma (ht : t.target.isX86) {r : Vreg} (hd : d ≠ t.scratchVreg)
    (ha : a ≠ t.scratchVreg) (hr : r ≠ t.scratchVreg)
    (hclean : ∀ e ∈ t.fma .fmadd231 d a (.reg r), e.Clean) :
    Does ar t (some t.scratchVreg) (t.fma .fmadd231 d a (.reg r)) fun v =>
      v.set d fun i => Tile.mulAdd ar t.fused (v.vec a i) (v.vec r i) (v.vec d i) := by
  have hfma : Synthesizes .fmadd231 := .inl rfl
  have hsome : ∀ q : Vreg, q ≠ t.scratchVreg → some q ≠ some t.scratchVreg := fun q hq h =>
    hq (Option.some.inj h)
  obtain ⟨low, hlow⟩ := t.exists_lowering .fmadd231 (fun h => by simp [fma, h]) hclean
  obtain ⟨hnative, hbase, -, hlegacy⟩ := lowering_native ht hlow
  simp only [fma, fused, hlow] at hclean ⊢
  cases low with
  | legacy => exact absurd hfma (hlegacy rfl)
  | vex | evex =>
    have hmulAdd : Does ar t _ _ _ := does_mulAdd (hnative.resolve_right (by simp)) (by simp)
      (hsome d hd) (hsome a ha) (hsome r hr) hclean
    simpa [Tile.mulAdd] using hmulAdd
  | synthesized =>
    have hpair : Does ar t _ _ _ := does_mulThenAdd ht hbase hd ha hr hclean
    simpa [Tile.mulAdd] using hpair
  | asimd => exact absurd rfl (lowering_ne_asimd ht hlow)

theorem does_clear (ht : t.target.isX86) (hd : some d ≠ x) (hclean : ∀ e ∈ t.clear d, e.Clean) :
    Does ar t x (t.clear d) fun v => v.set d fun _ => 0 := by
  have hplain : ¬ Synthesizes .zero := by simp [Synthesizes, VecOp.isFma]
  obtain ⟨low, hlow⟩ := t.exists_lowering .zero (fun h => by simp [clear, h]) hclean
  have hnative := native_of_lowering ht hlow hplain
  have hxor : (VecOp.zero.opcode low).kind? = some .xor := by cases low <;> rfl
  have hfirst : first low d d = d.num := by simp [first]
  simp only [clear, hlow] at hclean ⊢
  cases low with
  | legacy | vex | evex =>
    have hlane : Does ar t _ _ _ := does_lane hnative hxor rfl hfirst hd hd hclean
    simpa using hlane
  | _ => exact hnative.elim

theorem does_load (ht : t.target.isX86) (hop : op = .load ∨ op = .intLoad) {m : Address}
    (hclean : ∀ e ∈ t.unary op d (.mem m) none, e.Clean) :
    Does ar t x (t.unary op d (.mem m) none) fun v => v.set d (v.lanesAt (v.address m)) := by
  have hplain : ¬ Synthesizes op := by
    rcases hop with rfl | rfl <;> simp [Synthesizes, VecOp.isFma]
  obtain ⟨low, hlow⟩ := t.exists_lowering op (fun h => by simp [unary, h]) hclean
  have hnative := native_of_lowering ht hlow hplain
  have hmove : (op.opcode low).kind? = some .move := by rcases hop with rfl | rfl <;> rfl
  simp only [unary, hlow] at hclean ⊢
  cases low with
  | legacy | vex | evex => exact does_move hnative hmove hclean
  | _ => exact hnative.elim

theorem does_storeTo (ht : t.target.isX86) (hop : op = .store ∨ op = .intStore) {m : Address}
    (hd : some d ≠ x) (hclean : ∀ e ∈ t.storeTo op m d, e.Clean) :
    Does ar t x (t.storeTo op m d) fun v =>
      { v with mem := v.mem.writeWords (v.address m) t.len.lanes fun i =>
          v.vec d (X86.laneOf i) } := by
  have hplain : ¬ Synthesizes op := by
    rcases hop with rfl | rfl <;> simp [Synthesizes, VecOp.isFma]
  obtain ⟨low, hlow⟩ := t.exists_lowering op (fun h => by simp [storeTo, h]) hclean
  have hnative := native_of_lowering ht hlow hplain
  have hstore : (op.opcode low).kind? = some .store := by rcases hop with rfl | rfl <;> rfl
  simp only [storeTo, hlow] at hclean ⊢
  cases low with
  | legacy | vex | evex => exact does_store hnative hstore hd hclean
  | _ => exact hnative.elim

-- ---------------------------------------------------------------------------
-- Broadcasts
-- ---------------------------------------------------------------------------

theorem picked_zero {i : Fin 16} (h : i.val < 4) : X86.picked 0 i = 0 := by
  have hblock : i.val / 4 = 0 := Nat.div_eq_of_lt h
  simp [X86.picked, X86.laneOf, hblock]

/-- Sequences in place of broadcasts exist at 128 bits only. -/
theorem synthesized_len (ht : t.target.isX86) (hop : op = .broadcastFromMem ∨ op = .broadcastD)
    (h : t.lowering? op = some .synthesized) : t.len = .v128 := by
  rcases t with ⟨target, len, caps⟩
  have hx86 : target.isX86 = true := ht
  simp only [lowering?, hx86, ↓reduceIte] at h
  cases len with
  | v128 => rfl
  | v256 =>
    delta VecOp.lower256 at h
    rcases hop with rfl | rfl <;> simp [VecOp.isFma, VecOp.needsAvx2] at h
  | v512 =>
    delta VecOp.lower512 at h
    rcases hop with rfl | rfl <;> simp at h

section

variable {i : X86.Instr} {f : Form} (opcode : X86.Opcode) {m : Address} {n : UInt8}

theorem does_single (hlen : t.len = .v128) (hf : f.lanes = 4) (hk : opcode.kind? = some .single)
    (hfirst : (f.keeps || n == 0) = true) (hdecodes : (Emission.x86 i).Decodes)
    (hexec : ∀ s : Machine, s.exec ar i = s.vector ar f opcode d.num n (.mem m) none) :
    Does ar t x [.x86 i] fun v =>
      v.set d fun j => if j.val = 0 then v.mem.read32 (v.address m) else 0 where
  decodes e he := by
    obtain rfl := List.mem_singleton.mp he
    exact hdecodes
  run s v hs := by
    refine ⟨s.setVec f d.num fun j => if j.val = 0 then s.source (.mem m) (X86.laneOf 0) else 0,
      ?_, ?_⟩
    · simp only [Machine.block, hexec, Machine.vector_plain hk rfl, Machine.perform, hf, hfirst,
        decide_true, Bool.and_self, ↓reduceIte, Option.bind_some]
    · have hwidth : f.lanes = t.len.lanes := by rw [hf, hlen]; rfl
      exact hs.set hwidth fun j _ => by rw [hs.source_low]

/-- The low lane of a register to all its lanes. -/
theorem does_spread (hlen : t.len = .v128) (hf : f.lanes = 4) (hd : some d ≠ x)
    (hk : opcode.kind? = some .shuffle ∧ n = d.num ∨
      opcode.kind? = some .shuffleInt ∧ (f.keeps || n == 0) = true)
    (hdecodes : (Emission.x86 i).Decodes)
    (hexec : ∀ s : Machine, s.exec ar i = s.vector ar f opcode d.num n (.reg d.num) (some 0)) :
    Does ar t x [.x86 i] fun v => v.set d fun _ => v.vec d 0 where
  decodes e he := by
    obtain rfl := List.mem_singleton.mp he
    exact hdecodes
  run s v hs := by
    have hwidth : f.lanes = t.len.lanes := by rw [hf, hlen]; rfl
    have hzero : (0 : Fin 16).val < t.len.lanes := by rw [hlen]; decide
    refine ⟨s.setVec f d.num fun j => s.vec d (X86.picked 0 j), ?_, hs.set hwidth fun j hj => ?_⟩
    · rcases hk with ⟨hk, rfl⟩ | ⟨hk, hn⟩
      · simp [Machine.block, hexec, Machine.vector_imm hk rfl, Machine.perform, Machine.aligned,
          Machine.source]
      · have hok : (f.keeps && !s.aligned (.reg d.num) || !f.keeps && n != 0) = false := by
          cases hkeeps : f.keeps <;> simp_all [Machine.aligned]
        simp [Machine.block, hexec, Machine.vector_imm hk rfl, Machine.perform, hok, Machine.source]
    · rw [hlen] at hj
      rw [picked_zero hj, hs.vec d hd 0 hzero]

end

theorem does_synthBroadcast (ht : t.target.isX86)
    (hop : op = .broadcastFromMem ∨ op = .broadcastD) (h : t.lowering? op = some .synthesized)
    {m : Address} (hd : some d ≠ x) (hclean : ∀ e ∈ t.synthBroadcast op d (.mem m), e.Clean) :
    Does ar t x (t.synthBroadcast op d (.mem m)) fun v =>
      v.set d fun _ => v.mem.read32 (v.address m) := by
  have hlen := synthesized_len ht hop h
  have hboth : ∀ v : Machine,
      let u := v.set d fun j => if j.val = 0 then v.mem.read32 (v.address m) else 0
      v.set d (fun _ => v.mem.read32 (v.address m)) = u.set d fun _ => u.vec d 0 := by
    intro v
    simp
  simp only [hboth]
  rcases hop with rfl | rfl
  · have hfirst := hclean _ List.mem_cons_self
    have hsecond := hclean _ (List.mem_cons_of_mem _ List.mem_cons_self)
    exact (does_single movss (f := .legacy) (n := d.num) hlen rfl rfl rfl
      (X86.decodes_sse_clean (k := .single) rfl rfl hfirst) fun _ => rfl).append
        (does_spread shufps (f := .legacy) (n := d.num) hlen rfl hd (.inl ⟨rfl, rfl⟩)
          (X86.decodes_sse_clean (k := .shuffle) rfl rfl hsecond) fun _ => rfl)
  · simp only [synthBroadcast] at hclean ⊢
    cases hvex : t.vex with
    | true =>
      simp only [hvex, ↓reduceIte] at hclean ⊢
      have hfirst := hclean _ List.mem_cons_self
      have hsecond := hclean _ (List.mem_cons_of_mem _ List.mem_cons_self)
      exact (does_single movd (f := .vex false) (n := 0) hlen rfl rfl rfl
        (X86.decodes_vex_clean (k := .single) rfl rfl hfirst) fun _ => rfl).append
          (does_spread pshufd (f := .vex false) (n := 0) hlen rfl hd (.inr ⟨rfl, rfl⟩)
            (X86.decodes_vex_clean (k := .shuffleInt) rfl rfl hsecond) fun _ => rfl)
    | false =>
      simp only [hvex, Bool.false_eq_true, ↓reduceIte] at hclean ⊢
      have hfirst := hclean _ List.mem_cons_self
      have hsecond := hclean _ (List.mem_cons_of_mem _ List.mem_cons_self)
      exact (does_single movd (f := .legacy) (n := d.num) hlen rfl rfl rfl
        (X86.decodes_sse_clean (k := .single) rfl rfl hfirst) fun _ => rfl).append
          (does_spread pshufd (f := .legacy) (n := d.num) hlen rfl hd (.inr ⟨rfl, rfl⟩)
            (X86.decodes_sse_clean (k := .shuffleInt) rfl rfl hsecond) fun _ => rfl)

theorem does_broadcasts (ht : t.target.isX86) (hop : op = .broadcastFromMem ∨ op = .broadcastD)
    {m : Address} (hd : some d ≠ x) (hclean : ∀ e ∈ t.unary op d (.mem m) none, e.Clean) :
    Does ar t x (t.unary op d (.mem m) none) fun v =>
      v.set d fun _ => v.mem.read32 (v.address m) := by
  have hsynth : Synthesizes op := by rcases hop with rfl | rfl <;> simp [Synthesizes]
  obtain ⟨low, hlow⟩ := t.exists_lowering op (fun h => by simp [unary, h]) hclean
  obtain ⟨hnative, -, -, hlegacy⟩ := lowering_native ht hlow
  have hkind : (op.opcode low).kind? = some .broadcast := by rcases hop with rfl | rfl <;> rfl
  simp only [unary, hlow] at hclean ⊢
  cases low with
  | legacy => exact absurd hsynth (hlegacy rfl)
  | vex | evex => exact does_broadcast (hnative.resolve_right (by simp)) (by simp) hkind hclean
  | synthesized => exact does_synthBroadcast ht hop hlow hd hclean
  | asimd => exact absurd rfl (lowering_ne_asimd ht hlow)

end OpTable

-- ---------------------------------------------------------------------------
-- Calls
-- ---------------------------------------------------------------------------

/-- What a call is to do to a machine whose registers have `n` lanes. Calls that tiles do without
are left out. -/
def VecCall.effect (ar : Arith UInt32) (fused : Bool) (n : Nat) (c : VecCall) (v : Machine) :
    Machine :=
  match c with
  | .zero d => v.set d fun _ => 0
  | .load d m | .intLoad d m => v.set d (v.lanesAt (v.address m))
  | .store m r | .intStore m r =>
    { v with mem := v.mem.writeWords (v.address m) n fun i => v.vec r (X86.laneOf i) }
  | .broadcast d m | .broadcastD d (.mem m) => v.set d fun _ => v.mem.read32 (v.address m)
  | .add d a (.reg b) => v.set d fun i => ar.add (v.vec a i) (v.vec b i)
  | .mul d a (.reg b) => v.set d fun i => ar.mul (v.vec a i) (v.vec b i)
  | .paddD d a (.reg b) => v.set d fun i => v.vec a i + v.vec b i
  | .pmullD d a (.reg b) => v.set d fun i => v.vec a i * v.vec b i
  | .fmadd231 d a (.reg b) =>
    v.set d fun i => Tile.mulAdd ar fused (v.vec a i) (v.vec b i) (v.vec d i)
  | _ => v

/-- A call with an effect, away from register `x`; a second source is not the destination. -/
def VecCall.Within (x : Vreg) : VecCall → Prop
  | .zero d | .load d _ | .intLoad d _ | .broadcast d _ | .broadcastD d (.mem _) => d ≠ x
  | .store _ r | .intStore _ r => r ≠ x
  | .add d a (.reg b) | .mul d a (.reg b) | .paddD d a (.reg b) | .pmullD d a (.reg b) =>
    b ≠ d ∧ d ≠ x ∧ a ≠ x ∧ b ≠ x
  | .fmadd231 d a (.reg b) => d ≠ x ∧ a ≠ x ∧ b ≠ x
  | _ => False

theorem does_call {ar : Arith UInt32} {t : OpTable} (ht : t.target.isX86) {c : VecCall}
    (hc : c.Within t.scratchVreg) (hclean : ∀ e ∈ t.vector c, e.Clean) :
    Does ar t (some t.scratchVreg) (t.vector c) (c.effect ar t.fused t.len.lanes) := by
  have hsome : ∀ {q : Vreg}, q ≠ t.scratchVreg → some q ≠ some t.scratchVreg := fun hq h =>
    hq (Option.some.inj h)
  cases c with
  | zero d => exact t.does_clear ht (hsome hc) hclean
  | load d m => exact t.does_load ht (.inl rfl) hclean
  | intLoad d m => exact t.does_load ht (.inr rfl) hclean
  | store m r => exact t.does_storeTo ht (.inl rfl) (hsome hc) hclean
  | intStore m r => exact t.does_storeTo ht (.inr rfl) (hsome hc) hclean
  | broadcast d m => exact t.does_broadcasts ht (.inl rfl) (hsome hc) hclean
  | broadcastD d b =>
    cases b with
    | reg b => exact hc.elim
    | mem m => exact t.does_broadcasts ht (.inr rfl) (hsome hc) hclean
  | add d a b | mul d a b | paddD d a b | pmullD d a b =>
    cases b with
    | mem m => exact hc.elim
    | reg b =>
      obtain ⟨hbd, hd, ha, hb⟩ := hc
      exact t.does_binary ht (by simp [OpTable.Synthesizes, VecOp.isFma]) (fun _ _ => rfl) rfl hbd
        (hsome hd) (hsome ha) (hsome hb) hclean
  | fmadd231 d a b =>
    cases b with
    | mem m => exact hc.elim
    | reg b =>
      obtain ⟨hd, ha, hb⟩ := hc
      exact t.does_fma ht hd ha hb hclean
  | _ => exact hc.elim

theorem does_calls {ar : Arith UInt32} {t : OpTable} (ht : t.target.isX86) {cs : List VecCall}
    (hcs : ∀ c ∈ cs, c.Within t.scratchVreg) (hclean : ∀ e ∈ cs.flatMap t.vector, e.Clean) :
    Does ar t (some t.scratchVreg) (cs.flatMap t.vector) fun v =>
      cs.foldl (fun v c => c.effect ar t.fused t.len.lanes v) v :=
  .flatMap fun c hc => does_call ht (hcs c hc) fun e he =>
    hclean e (List.mem_flatMap_of_mem hc he)

end JitGemm
