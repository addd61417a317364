import JitGemm.Proofs.Scalar.Accesses

/-!
# Constants, offsets and addresses

Constants are entered, offsets added and subtracted, and memory accessed past a base, exactly and
modulo 2^64, for every number that a call takes and on both architectures.
-/

namespace JitGemm

-- ---------------------------------------------------------------------------
-- Calls
-- ---------------------------------------------------------------------------

/-- Memory past a base. -/
inductive Place where
  /-- An operand of its own. -/
  | disp (base : Gpr) (disp : Int32)
  /-- What a generator makes of an offset of any size. -/
  | offset (base : Gpr) (offset : Int64)
  deriving DecidableEq, Repr

namespace Place

def base : Place → Gpr
  | disp b _ | offset b _ => b

def distance : Place → UInt64
  | disp _ d => d.toInt64.toUInt64
  | offset _ o => o.toUInt64

/-- The operand, and what it takes to form it. -/
def operand (t : Target) : Place → Address × List Emission
  | disp b d => (.past b d, [])
  | offset b o => t.offsetAddress b o

end Place

inductive OffsetCall where
  | movImm (d : Gpr) (imm : Int64)
  | add (r : Gpr) (offset : Int64)
  | sub (r : Gpr) (offset : Int64)
  | access (a : Access) (p : Place)
  deriving DecidableEq, Repr

def Generator.offsetCall (g : Generator) : OffsetCall → Generator
  | .movImm d imm => g.scalar (.movImm d imm)
  | .add r offset => g.scalar (.addOffset r offset)
  | .sub r offset => g.scalar (.subOffset r offset)
  | .access a (.disp base disp) => g.access (.past base disp) a
  | .access a (.offset base offset) =>
    let (m, g) := g.offsetAddress base offset
    g.access m a

namespace OffsetCall

def gprs : OffsetCall → List Gpr
  | movImm d _ => [d]
  | add r _ | sub r _ => [r]
  | access a p => p.base :: a.gpr?.toList

/-- Whether the call is one for which the table may lack an encoding. -/
def onTable : OffsetCall → Bool
  | access a _ => a.gpr?.isNone
  | _ => false

def code (t : OpTable) : OffsetCall → List Emission
  | movImm d imm => t.target.scalar (.movImm d imm)
  | add r offset => t.target.addOffset r offset
  | sub r offset => t.target.subOffset r offset
  | access a p => (p.operand t.target).2 ++ a.code t (p.operand t.target).1

theorem offsetCall_eq (g : Generator) (c : OffsetCall) :
    g.offsetCall c = g.emit (c.code g.table) := by
  cases c with
  | movImm d imm | add r offset | sub r offset => rfl
  | access a p =>
    rw [code, g.emit_append]
    cases p <;> exact Access.access_eq _ _ a

/-- What a call does on a target with vector registers of `n` lanes, beyond changing register `x`,
if there is one. -/
def Done (K : Core) (n : Nat) (x : Option Gpr) (s s' : K.State) : OffsetCall → Prop
  | movImm d imm => K.Sets x d imm.toUInt64 s s'
  | add r offset => K.Sets x r (K.reg s r + offset.toUInt64) s s'
  | sub r offset => K.Sets x r (K.reg s r - offset.toUInt64) s s'
  | access a p => a.Done K n x (K.reg s p.base + p.distance) s s'

end OffsetCall

-- ---------------------------------------------------------------------------
-- What calls do
-- ---------------------------------------------------------------------------

theorem Place.forms (ar : Arith UInt32) {t : Target} {p : Place} (hb : t.HasGpr p.base)
    (hne : p.base ≠ t.scratchGpr) :
    t.Forms ar (p.operand t).1 (p.operand t).2 fun s => (t.core ar).reg s p.base + p.distance := by
  cases p with
  | disp b d => exact Target.forms_past hb hne d
  | offset b o => exact Target.forms_offsetAddress hb hne o

/-- An access to a place by registers that do not move on the way. -/
theorem Access.runs_at {ar : Arith UInt32} {t : OpTable} {a : Access} {p : Place}
    (hb : t.target.HasGpr p.base) (hne : p.base ≠ t.target.scratchGpr)
    (ha : ∀ r, a.gpr? = some r → t.target.HasGpr r ∧ r ≠ t.target.scratchGpr)
    (hclean : ∀ e ∈ (OffsetCall.access a p).code t, e.Clean) (s : (t.target.core ar).State) :
    ∃ s', t.target.Carries (t.target.core ar).step?
        (blockBytes ((OffsetCall.access a p).code t)) s s' ∧
      a.Done (t.target.core ar) t.len.lanes (some t.target.scratchGpr)
        ((t.target.core ar).reg s p.base + p.distance) s s' := by
  have hforms := p.forms ar hb hne
  obtain ⟨u, hu, hkept, hloc⟩ := hforms.run s
  obtain ⟨s', hs', hdone⟩ :=
    Access.runs ar hforms.accessible ha (List.forall_mem_append.mp hclean).2 u
  rw [hloc] at hdone
  refine ⟨s', ?_, hdone.after hkept fun r hr h => (ha r hr).2 (Option.some.inj h)⟩
  rw [OffsetCall.code, blockBytes_append]
  exact hu.append hs'

/-- With general registers that the target has, other than the one that calls overwrite. What does
not go by the table leaves no error of its own. -/
theorem offset_calls_exact (ar : Arith UInt32) (g : Generator) {c : OffsetCall}
    (hfit : ∀ r ∈ c.gprs, g.table.target.HasGpr r ∧ r ≠ g.table.target.scratchGpr) :
    (c.onTable = false → (g.offsetCall c).buffer.error = g.buffer.error) ∧
      ((g.offsetCall c).buffer.error = none → g.Performs ar (g.offsetCall c) fun s s' =>
        c.Done (g.table.target.core ar) g.table.len.lanes (some g.table.target.scratchGpr)
          s s') := by
  rw [OffsetCall.offsetCall_eq]
  cases c with
  | movImm d imm =>
    obtain ⟨hd, -⟩ := hfit d (List.mem_singleton_self d)
    exact (Generator.performs_computes (Target.computes_movImm hd imm).hide).imp
      (fun h _ => h) fun h _ => h
  | add r offset =>
    obtain ⟨hr, hne⟩ := hfit r (List.mem_singleton_self r)
    exact (Generator.performs_computes (Target.computes_addOffset hr hne offset)).imp
      (fun h _ => h) fun h _ => h
  | sub r offset =>
    obtain ⟨hr, hne⟩ := hfit r (List.mem_singleton_self r)
    exact (Generator.performs_computes (Target.computes_subOffset hr hne offset)).imp
      (fun h _ => h) fun h _ => h
  | access a p =>
    obtain ⟨hb, hne⟩ := hfit p.base List.mem_cons_self
    have ha : ∀ r, a.gpr? = some r → g.table.target.HasGpr r ∧ r ≠ g.table.target.scratchGpr :=
      fun r hr => hfit r (List.mem_cons_of_mem _ (by simp [hr]))
    refine ⟨fun hscalar => g.error_emit ?_, fun herror => Generator.performs_emit fun s => ?_⟩
    · have hforms := p.forms ar hb hne
      obtain ⟨r, hr⟩ := Option.isSome_iff_exists.mp (Option.isNone_eq_false_iff.mp hscalar)
      exact List.forall_mem_append.mpr
        ⟨hforms.clean, Access.clean_of_gpr hforms.accessible hr (ha r hr).1⟩
    · exact Access.runs_at hb hne ha (ok_foldl herror).2 s

theorem least_offset_loads :
    let g : Generator :=
      { name := "k", origin := "k", table := ⟨.aarch64, .v128, .ofList [.asimd]⟩ }
    let c : OffsetCall := .access (.load ⟨0⟩) (.offset ⟨1⟩ Int64.minValue)
    let code : List UInt8 :=
      [0x10, 0x00, 0x80, 0xD2, 0x10, 0x00, 0xF0, 0xF2, 0x30, 0x00, 0x10, 0x8B, 0x00, 0x02, 0xC0,
        0x3D]
    (∀ r ∈ c.gprs, Target.aarch64.HasGpr r ∧ r ≠ Target.aarch64.scratchGpr) ∧
      (g.offsetCall c).buffer.error = none ∧ (g.offsetCall c).buffer.bytes.toList = code ∧
        ∀ (ar : Arith UInt32) (s : Arm64.Machine), s.gpr ⟨1⟩ = 0x8000000000001000 →
          ∃ s' : Arm64.Machine,
            Target.aarch64.run? (Target.aarch64.core ar).step? code s = some s' ∧
              s'.gpr ⟨2⟩ = s.gpr ⟨2⟩ ∧ s'.mem = s.mem ∧
                ∀ j < 4, s'.lanes ⟨0⟩ j = s.mem.read32 (0x1000 + UInt64.ofNat (4 * j)) := by
  intro g c code
  have hfit : ∀ r ∈ c.gprs, Target.aarch64.HasGpr r ∧ r ≠ Target.aarch64.scratchGpr := by decide
  have herror : (g.offsetCall c).buffer.error = none := by decide
  have hbytes : (g.offsetCall c).buffer.bytes.toList = code := by decide
  refine ⟨hfit, herror, hbytes, fun ar s hs => ?_⟩
  obtain ⟨emitted, hemitted, hruns⟩ := (offset_calls_exact ar g hfit).2 herror
  obtain rfl : emitted = code := (hemitted.symm.trans hbytes :)
  obtain ⟨s', hrun, hdone⟩ := hruns s
  obtain ⟨hmem, hlanes⟩ := hdone.effect
  have hlen : g.table.len.lanes = 4 := by decide
  refine ⟨s', hrun, hdone.gpr ⟨2⟩ (by decide) (by decide), hmem,
    fun j hj => (hlanes j (hlen ▸ hj)).trans ?_⟩
  show s.mem.read32 (s.gpr ⟨1⟩ + _ + _) = _
  rw [hs]
  rfl

end JitGemm
