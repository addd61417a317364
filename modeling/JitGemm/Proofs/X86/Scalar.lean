import JitGemm.Generator.Scalar
import JitGemm.Proofs.X86.Lowering

/-!
# General register operations at run time

What the single-instruction operations on general registers do on x86-64. They leave vector
registers alone, and only loads look at memory.
-/

namespace JitGemm

open X86 (Machine)

variable {ar : Arith UInt32} {t : OpTable} {x : Option Vreg}

namespace Agree

variable {n : Nat} {s v : Machine}

theorem setGpr (h : Agree n x s v) (r : Gpr) (w : UInt64) :
    Agree n x (s.setGpr r w) (v.setGpr r w) where
  gpr := by
    funext q
    simp [h.gpr]
  vec := h.vec
  mem := h.mem

theorem setResult (h : Agree n x s v) (r : Gpr) (w : UInt64) :
    Agree n x (s.setResult r w) (v.setGpr r w) where
  gpr := (h.setGpr r w).gpr
  vec := h.vec
  mem := h.mem

theorem read64 (h : Agree n x s v) (a : Address) :
    s.mem.read64 (s.address a) = v.mem.read64 (v.address a) := by
  rw [h.mem, h.address]

end Agree

theorem does_instr {i : X86.Instr} (hi : i.Integer) {f : Machine → Machine}
    (hrun : ∀ s v, Agree t.len.lanes x s v →
      ∃ s', s.exec ar i = some s' ∧ Agree t.len.lanes x s' (f v)) :
    Does ar t x [.x86 i] f where
  decodes e he := by
    obtain rfl := List.mem_singleton.mp he
    exact .integer hi
  run s v hs := by
    obtain ⟨s', hexec, hagree⟩ := hrun s v hs
    exact ⟨s', by simp [Machine.block, hexec], hagree⟩

/-- What an operation is to do. Operations that tiles do without are left out. -/
def ScalarOp.effect (op : ScalarOp) (v : Machine) : Machine :=
  match op with
  | .mov d s => v.setGpr d (v.gpr s)
  | .load d m => v.setGpr d (v.mem.read64 (v.address m))
  | .add d s => v.setGpr d (v.gpr d + v.gpr s)
  | .addOffset r offset => v.setGpr r (v.gpr r + offset.toUInt64)
  | _ => v

/-- An operation with an effect, on registers that exist and with an offset that an immediate
holds. -/
def ScalarOp.Short : ScalarOp → Prop
  | .mov d s | .add d s => d.num ≤ 15 ∧ s.num ≤ 15
  | .load d _ => d.num ≤ 15
  | .addOffset r offset => r.num ≤ 15 ∧ X86.fitsInt32 offset
  | _ => False

theorem X86.load_clean {d : Gpr} {m : Address} (h : (Instr.load d m).chunk.fault = none) :
    checkAddress m = .ok () := by
  obtain ⟨bytes, hbytes⟩ := fault_ofExcept h
  cases hm : checkAddress m with
  | ok => rfl
  | error e => simp [op64, checkRm, hm, bind, Except.bind] at hbytes

theorem does_scalar (ht : t.target.isX86) {op : ScalarOp} (hop : op.Short)
    (hclean : ∀ e ∈ t.target.scalar op, e.Clean) :
    Does ar t x (t.target.scalar op) op.effect := by
  cases op with
  | mov d s =>
    simp only [Target.scalar, Target.pick, ht, ↓reduceIte]
    exact does_instr (i := .mov d s) hop fun s v hs =>
      ⟨_, rfl, by rw [hs.gpr]; exact hs.setGpr _ _⟩
  | load d m =>
    simp only [Target.scalar, Target.loadGpr, ht, ↓reduceIte] at hclean ⊢
    have hm := X86.load_clean (hclean _ List.mem_cons_self)
    exact does_instr (i := .load d m) ⟨hop, hm⟩ fun s v hs =>
      ⟨_, rfl, by rw [hs.read64]; exact hs.setGpr _ _⟩
  | add d s =>
    simp only [Target.scalar, Target.addGpr, Target.pick, ht, ↓reduceIte]
    exact does_instr (i := .add d s) hop fun s v hs =>
      ⟨_, rfl, by rw [hs.gpr]; exact hs.setResult _ _⟩
  | addOffset r offset =>
    obtain ⟨hr, hoffset⟩ := hop
    simp only [Target.scalar, Target.addOffset, ht, hoffset, ↓reduceIte]
    exact does_instr (i := .addImm r offset.toInt32) hr fun s v hs =>
      ⟨_, rfl, by rw [hs.gpr, X86.toInt32_inverse hoffset]; exact hs.setResult _ _⟩
  | _ => exact hop.elim

theorem does_scalars (ht : t.target.isX86) {ops : List ScalarOp} (hops : ∀ op ∈ ops, op.Short)
    (hclean : ∀ e ∈ ops.flatMap t.target.scalar, e.Clean) :
    Does ar t x (ops.flatMap t.target.scalar) fun v => ops.foldl (fun v op => op.effect v) v :=
  .flatMap fun op hop => does_scalar ht (hops op hop) fun e he =>
    hclean e (List.mem_flatMap_of_mem hop he)

end JitGemm
