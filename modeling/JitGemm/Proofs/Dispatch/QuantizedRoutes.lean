import JitGemm.Proofs.Dispatch.Ends
import JitGemm.Proofs.Gemm.BlockedInt
import JitGemm.Proofs.Gemm.Requests

/-!
# Quantized routes are bit-identical

Whichever built-in way a quantized call takes, C ends as the reference kernel leaves it. Capability
set, code capacity, team and kept kernels decide the way and nothing else. What is packed on the way
must be no larger than an object can be.
-/

namespace JitGemm

namespace Dispatcher

variable {α B : Type} (ar : Arith α)

-- ---------------------------------------------------------------------------
-- Routes
-- ---------------------------------------------------------------------------

/-- What a quantized call makes of C. -/
def quantizedResult (kind : IntKind B) (q : Request α Int8 B) (c : Array Int32) : Array Int32 :=
  q.shape.overwrite (Reference.intValue ar q.intA (q.intB kind) q.shape.k q.alpha q.beta q.offset)
    (fun _ _ => true) c

section

variable {q : Request α Int8 B} {c : Array Int32} {kind : IntKind B}

theorem run_igemm (h : q.shape.Ready q.intA (q.intB kind) c.size)
    (hoffset : Offset.Reaches q.offset q.shape.m q.shape.n) (team : Work.Team) :
    (Reference.igemm ar kind team q).run c = .ok () (quantizedResult ar kind q c) :=
  Reference.run_int ar h hoffset team

theorem builtinIgemm_result (d : Dispatcher α)
    (h : q.shape.Ready q.intA (q.intB kind) c.size)
    (hoffset : Offset.Reaches q.offset q.shape.m q.shape.n) (hk : 0 < q.shape.k)
    (hw : q.shape.PanelsFit tileCols) (hpack : ∀ key : TileKey, q.shape.Packable key.rows) :
    (∃ route, (d.builtinIgemm ar kind q c).outcome = .routed route) ∧
      (d.builtinIgemm ar kind q c).c = quantizedResult ar kind q c := by
  obtain ⟨d', route, hend | ⟨key, shift, hend⟩⟩ := builtinIgemm_cases ar d kind q c
  · rw [hend, finish_ok (Reference.run_int ar h hoffset d'.team)]
    exact ⟨⟨_, rfl⟩, rfl⟩
  · rw [hend, finish_ok
      (Blocked.run_int ar h hoffset hk hw key.rows_pos (hpack key) shift d'.team)]
    exact ⟨⟨_, rfl⟩, rfl⟩

end

section

variable {e : Quantized α B} {q : Request α Int8 B} {c : Array Int32}

/-- A call that no vendor library takes goes to the built-in routes. -/
theorem igemm_builtin (d : Dispatcher α)
    (hcheck : (q.outline ar .s8 e.kind.elem .s32 c.size).checkQuantized = .ok ())
    (hwork : q.shape.degenerate = false)
    (hvendor : ∀ v, d.vendor = some v → e.vendorRun v q = none) :
    ∃ d' : Dispatcher α, d.igemm ar e q c = d'.builtinIgemm ar e.kind q c := by
  rw [igemm, guarded_ok hcheck hwork]
  cases hv : d.vendor with
  | none => exact ⟨d, rfl⟩
  | some v =>
    simp only [hvendor v hv]
    exact ⟨_, rfl⟩

/-- An accepted quantized call that no vendor library takes, and that generated kernels can pack,
leaves C exactly as the reference kernel does, on every dispatcher; so do the tiles of any height
that can be packed for, with any shift and by any team. -/
theorem igemm_eq_reference (d : Dispatcher α)
    (hfit : (q.outline ar .s8 e.kind.elem .s32 c.size).Addressable)
    (hcheck : (q.outline ar .s8 e.kind.elem .s32 c.size).checkQuantized = .ok ())
    (hwork : q.shape.degenerate = false) (hw : q.shape.ldc * tileCols < Size.modulus)
    (hpack : ∀ key : TileKey, q.shape.Packable key.rows)
    (hvendor : ∀ v, d.vendor = some v → e.vendorRun v q = none) :
    ∃ c', (∀ team, (Reference.igemm ar e.kind team q).run c = .ok () c') ∧
      (∃ route, (d.igemm ar e q c).outcome = .routed route) ∧ (d.igemm ar e q c).c = c' ∧
      ∀ (team : Work.Team) (rows : Nat) (shift : Int32), 0 < rows → q.shape.Packable rows →
        (Blocked.int ar team rows shift q q.intA (q.intB e.kind)).run c = .ok () c' := by
  obtain ⟨hready, hoffset⟩ :=
    Request.readyQuantized ar hfit hcheck (GemmShape.block_of_work hwork)
  have hk := GemmShape.steps_of_work hwork
  obtain ⟨d', hbuiltin⟩ := igemm_builtin ar d hcheck hwork hvendor
  obtain ⟨hrouted, hresult⟩ := builtinIgemm_result ar d' hready hoffset hk (.inl hw) hpack
  rw [hbuiltin]
  exact ⟨quantizedResult ar e.kind q c, run_igemm ar hready hoffset, hrouted, hresult,
    fun team rows shift hrows hrowsPack =>
      Blocked.run_int ar hready hoffset hk (.inl hw) hrows hrowsPack shift team⟩

end

/-- A signed product of 17 x 5 in columns of 20, with an offset for every column. -/
def edgeCall : Request Single Int8 Int8 where
  shape := { GemmShape.tight .noTrans .trans 17 5 2 with ldc := 20 }
  a := Array.replicate 34 3
  b := Array.replicate 10 (-2)
  alpha := .one
  beta := .one
  offset := some ⟨.rowWise, #[1, 2, 3, 4, 5]⟩

theorem edgeCall_eq_reference :
    let d : Dispatcher Single := build ⟨.full, some .sysV, 4⟩ {} {} .serial
    ∃ c', (Reference.igemm Single.arith .signed .serial edgeCall).run (Array.replicate 97 1) =
        .ok () c' ∧
      (d.s8s8 Single.arith edgeCall (Array.replicate 97 1)).c = c' := by
  intro d
  obtain ⟨c', hreference, -, hresult, -⟩ := igemm_eq_reference Single.arith d (e := signedB)
    (q := edgeCall) (c := Array.replicate 97 1) (by constructor <;> decide) rfl rfl (by decide)
    (GemmShape.packable_of_spare (by decide)) nofun
  exact ⟨c', hreference .serial, hresult⟩

end Dispatcher

end JitGemm
