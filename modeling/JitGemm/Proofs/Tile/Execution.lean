import JitGemm.Proofs.Tile.Layout
import JitGemm.Proofs.Tile.WriteBack

/-!
# Tile kernels compute the tile

A run of a generated kernel, from the first byte of its code to the return: the frame, the entry,
as many rounds as there are steps, the write-back, and the frame again. It ends for every number of
steps and all contents of memory, as long as its stack does not reach into what it reads.
-/

namespace JitGemm.Tile

open X86 (Machine Memory Span Apart Runs Config jccBytes)

variable {ar : Arith UInt32} {t : OpTable} {k : TileKey} {x : Args}

-- ---------------------------------------------------------------------------
-- What a kernel reads
-- ---------------------------------------------------------------------------

/-- The bytes that a kernel reads, with its argument block at `p`. -/
def Args.Reads (x : Args) (k : TileKey) (p y : UInt64) : Prop :=
  Span p 56 y ∨ Span x.a (4 * (x.steps.toNat * k.rows)) y ∨
    Span x.b (4 * (x.steps.toNat * tileCols)) y ∨
    k.withBias = true ∧ Span x.bias (4 * k.rows) y ∨
    ∃ i < k.rows, ∃ j < tileCols, Span (x.word i j) 4 y

theorem Args.read_congr {m m' : Memory} {p : UInt64} (h : ∀ y, Span p 56 y → m y = m' y) :
    Args.read m p = Args.read m' p := by
  have hwide : ∀ n, n + 8 ≤ 56 → m.read64 (p + UInt64.ofNat n) = m'.read64 (p + UInt64.ofNat n) :=
    fun n hn => X86.Memory.read64_congr fun y hy => h y (hy.shift hn)
  have hnarrow : ∀ n, n + 4 ≤ 56 → m.read32 (p + UInt64.ofNat n) = m'.read32 (p + UInt64.ofNat n) :=
    fun n hn => X86.Memory.read32_congr fun y hy => h y (hy.shift hn)
  have hsteps : m.read64 p = m'.read64 p :=
    X86.Memory.read64_congr fun y hy => h y (hy.mono (by decide))
  simp only [Args.read, Args.mk.injEq]
  exact ⟨hsteps, hwide 8 (by decide), hwide 16 (by decide), hwide 24 (by decide),
    hwide 32 (by decide), hnarrow 40 (by decide), hnarrow 44 (by decide), hwide 48 (by decide)⟩

theorem panel_congr {m m' : Memory} {a : UInt64} {n : Nat}
    (h : ∀ y, Span a (4 * n) y → m y = m' y) : panel m a n = panel m' a n := by
  refine congrArg Array.ofFn (funext fun q => ?_)
  exact X86.Memory.read32_congr fun y hy => h y (hy.shift (by omega))

theorem outcome_congr {m m' : Memory} {p : UInt64} (h : ∀ y, x.Reads k p y → m y = m' y)
    {i j : Nat} (hi : i < k.rows) (hj : j < tileCols) :
    x.outcome ar t k m i j = x.outcome ar t k m' i j := by
  have hsum : ∀ n, x.sum ar t k m n i j = x.sum ar t k m' n i j := fun n => by
    rw [Args.sum, Args.sum, panel_congr fun y hy => h y (.inr (.inl hy)),
      panel_congr fun y hy => h y (.inr (.inr (.inl hy)))]
  have hbias : x.biasOf k m i = x.biasOf k m' i := by
    unfold Args.biasOf
    split
    · rename_i hwith
      refine congrArg some (X86.Memory.read32_congr fun y hy => h y ?_)
      exact .inr (.inr (.inr (.inl ⟨hwith, hy.shift (by omega)⟩)))
    · rfl
  have hword : m.read32 (x.word i j) = m'.read32 (x.word i j) :=
    X86.Memory.read32_congr fun y hy =>
      h y (.inr (.inr (.inr (.inr ⟨i, hi, j, hj, hy⟩))))
  simp only [Args.outcome, hsum, hbias, hword]

-- ---------------------------------------------------------------------------
-- The loop
-- ---------------------------------------------------------------------------

variable {m : Memory} {low : UInt64} {args : Gpr} {code : List UInt8} {forward back : Int32}

theorem count_down (n : UInt64) (p : Nat) :
    n - UInt64.ofNat p - 1 = n - UInt64.ofNat (p + 1) := by
  apply UInt64.toNat_inj.mp
  simp only [UInt64.toNat_sub, UInt64.toNat_ofNat', UInt64.toNat_one]
  omega

theorem count_zero {n : UInt64} {p : Nat} (hp : p ≤ n.toNat) :
    n - UInt64.ofNat p = 0 ↔ p = n.toNat := by
  have hn := n.toNat_lt
  rw [← UInt64.toNat_inj, UInt64.toNat_sub, UInt64.toNat_ofNat', UInt64.toNat_zero]
  omega

theorem round_looping (ht : t.target.isX86) (hc : (parts t k args).Clean) (hzero : ar.zero = 0)
    (hlen : t.len = k.vecLen) {p : Nat} (hp : p < x.steps.toNat) {s v : Machine}
    (hs : Agree t.len.lanes (some t.scratchVreg) s v) (hv : Looping ar t k x m low p v)
    (hcount : v.gpr .r8 = x.steps - UInt64.ofNat p) :
    ∃ s' v', s.block ar (parts t k args).round = some s' ∧
      s'.zf = decide (p + 1 = x.steps.toNat) ∧
      Agree t.len.lanes (some t.scratchVreg) s' v' ∧ Looping ar t k x m low (p + 1) v' ∧
      v'.gpr .r8 = x.steps - UInt64.ofNat (p + 1) := by
  obtain ⟨s₁, hblock, hs₁⟩ := (does_step ar ht hc.step).run s v hs
  obtain ⟨hv₁, hsame⟩ := step_looping hzero hlen hp hv
  have hleft : s₁.gpr .r8 - 1 = x.steps - UInt64.ofNat (p + 1) := by
    rw [hs₁.gpr, hsame, hcount, count_down]
  refine ⟨_, _, Machine.block_append hblock rfl, ?_, hs₁.setResult .r8 _, ?_, hleft⟩
  · rw [Bool.eq_iff_iff, decide_eq_true_iff, ← count_zero hp, ← hleft]
    exact beq_iff_eq
  · exact { hv₁ with }

/-- The loop runs until no step remains. -/
theorem runs_loop (ht : t.target.isX86) (hc : (parts t k args).Clean)
    (hf : (parts t k args).Finished code forward back) (hzero : ar.zero = 0)
    (hlen : t.len = k.vecLen) (left : Nat) {p : Nat} (hleft : p + (left + 1) = x.steps.toNat)
    {s v : Machine} (hs : Agree t.len.lanes (some t.scratchVreg) s v)
    (hv : Looping ar t k x m low p v) (hcount : v.gpr .r8 = x.steps - UInt64.ofNat p) :
    ∃ s' v', Runs ar code (.at (parts t k args).top s) (.at (parts t k args).behind s') ∧
      Agree t.len.lanes (some t.scratchVreg) s' v' ∧
      Looping ar t k x m low x.steps.toNat v' := by
  induction left generalizing p s v with
  | zero =>
    obtain ⟨s', v', hblock, hzf, hs', hv', -⟩ :=
      round_looping ht hc hzero hlen (by omega) hs hv hcount
    have hruns := Parts.runs_round (parts_decodes ar ht hc) hf hblock
    rw [hzf, if_pos (decide_eq_true hleft)] at hruns
    exact ⟨s', v', hruns, hs', hleft ▸ hv'⟩
  | succ left ih =>
    obtain ⟨s₁, v₁, hblock, hzf, hs₁, hv₁, hcount₁⟩ :=
      round_looping ht hc hzero hlen (by omega) hs hv hcount
    have hruns := Parts.runs_round (parts_decodes ar ht hc) hf hblock
    have hmore : ¬ p + 1 = x.steps.toNat := by omega
    rw [hzf, decide_eq_false hmore, if_neg Bool.false_ne_true] at hruns
    obtain ⟨s', v', hrest, hs', hv'⟩ := ih (p := p + 1) (by omega) hs₁ hv₁ hcount₁
    exact ⟨s', v', hruns.trans ar hrest, hs', hv'⟩

-- ---------------------------------------------------------------------------
-- The whole run
-- ---------------------------------------------------------------------------

/-- The lowest byte of the stack of a kernel that is entered with the stack pointer `rsp`. -/
def stackLow (target : Target) (rsp : UInt64) : UInt64 :=
  rsp - UInt64.ofNat (Frame.saved target)

/-- What frame and entry leave for the loop, or for the write-back when there is no step. -/
theorem opening_looping (ht : t.target.isX86) (hc : (parts t k args).Clean) (hzero : ar.zero = 0)
    (hargs : args = .rdi ∨ args = .rcx) {s : Machine}
    (hread : Apart (Span (stackLow t.target (s.gpr .rsp)) (Frame.saved t.target))
      (Span (s.gpr args) 56)) :
    let x := Args.read s.mem (s.gpr args)
    ∃ m s' v', s.block ar (parts t k args).opening = some s' ∧
      (∀ y, ¬ Span (stackLow t.target (s.gpr .rsp)) (Frame.saved t.target) y → m y = s.mem y) ∧
      s'.zf = decide (x.steps.toNat = 0) ∧
      Agree t.len.lanes (some t.scratchVreg) s' v' ∧
      Looping ar t k x m (stackLow t.target (s.gpr .rsp)) 0 v' ∧ v'.gpr .r8 = x.steps := by
  intro x
  have htop : s.gpr .rsp =
      stackLow t.target (s.gpr .rsp) + UInt64.ofNat (Frame.saved t.target) := by
    simp [stackLow]
  obtain ⟨u, hpreamble, hopens⟩ := Frame.opens_preamble ar ht t.vex _ htop
  obtain ⟨s₁, hentry, hs₁⟩ := (does_entry ar ht hc.entry).run u u (.refl _ _ u)
  obtain ⟨hv, hcount⟩ := entry_looping t k hzero hargs u
  have hself : u.gpr args = s.gpr args :=
    hopens.gpr args (by rcases hargs with rfl | rfl <;> decide)
  have hx : Args.read u.mem (u.gpr args) = x := by
    rw [hself]
    exact Args.read_congr fun y hy => hopens.mem y fun hy' => hread y hy' hy
  rw [hx, hopens.top] at hv
  rw [hx] at hcount
  have htest : s₁.block ar [.x86 (.test .r8 .r8)] =
      some { s₁ with zf := s₁.gpr .r8 &&& s₁.gpr .r8 == 0 } := rfl
  refine ⟨u.mem, _, _, Machine.block_append (Machine.block_append hpreamble hentry) htest,
    hopens.mem, ?_, ⟨hs₁.gpr, hs₁.vec, hs₁.mem⟩, hv, hcount⟩
  rw [Bool.eq_iff_iff, decide_eq_true_iff, hs₁.gpr, hcount, UInt64.and_self, beq_iff_eq,
    ← UInt64.toNat_inj, UInt64.toNat_zero]

/-- From the end of the loop to the return. -/
theorem runs_end (ht : t.target.isX86) (hc : (parts t k args).Clean)
    (hf : (parts t k args).Finished code forward back) (hlen : t.len = k.vecLen) (hx : x.Fits k)
    {s v : Machine} (hs : Agree t.len.lanes (some t.scratchVreg) s v)
    (hv : Looping ar t k x m low x.steps.toNat v) :
    let rsp := low + UInt64.ofNat (Frame.saved t.target)
    ∃ s', Runs ar code (.at (parts t k args).behind s) (.left (s'.mem.read64 rsp) s') ∧
      s'.gpr .rsp = rsp + 8 ∧
      (∀ i < k.rows, ∀ j < tileCols, s'.mem.read32 (x.word i j) = x.outcome ar t k m i j) ∧
      ∀ y, (∀ i < k.rows, ∀ j < tileCols, ¬ Span (x.word i j) 4 y) → s'.mem y = m y := by
  intro rsp
  obtain ⟨s₁, hwrite, hs₁⟩ := (does_writeBack ar ht hc.writeBack).run s v hs
  obtain ⟨htop, hdone, hkept⟩ := writeBack_fills hx hlen hv
  obtain ⟨es, u, hes, hblock, hcloses⟩ := Frame.closes_postamble ar ht t.vex s₁
  have hclosing : (parts t k args).closing = (parts t k args).writeBack ++ es ++ [.x86 .ret] := by
    rw [Parts.closing, List.append_assoc, ← hes]
    rfl
  have hruns := Parts.runs_closing (parts_decodes ar ht hc) hf hclosing
    (Machine.block_append hwrite hblock)
  have hrsp : u.gpr .rsp = rsp := by rw [hcloses.top, hs₁.gpr, htop]
  have hmem : u.mem = (writeBackEffect ar t k v).mem := by rw [hcloses.mem, hs₁.mem]
  rw [hrsp] at hruns
  refine ⟨u.setGpr .rsp (rsp + 8), hruns, ?_, fun i hi j hj => ?_, fun y hy => ?_⟩
  · rw [Machine.setGpr_gpr, if_pos rfl]
  · rw [Machine.setGpr_mem, hmem, hdone i hi j hj]
  · rw [Machine.setGpr_mem, hmem, hkept y hy]

/-- The bytes from the stack pointer of a kernel to the end of its return address. -/
def Stack (target : Target) (rsp y : UInt64) : Prop :=
  Span (stackLow target rsp) (Frame.saved target + 8) y

theorem stack_return {target : Target} {rsp y : UInt64} (h : Span rsp 8 y) :
    Stack target rsp y := by
  have hrsp : rsp = stackLow target rsp + UInt64.ofNat (Frame.saved target) := by simp [stackLow]
  rw [hrsp] at h
  exact h.shift (Nat.le_refl _)

theorem return_apart {target : Target} (ht : target.isX86) (rsp : UInt64) :
    Apart (Span (stackLow target rsp) (Frame.saved target)) (Span rsp 8) := by
  have hsaved : 0 + Frame.saved target ≤ Frame.saved target ∧ Frame.saved target + 8 ≤ 2 ^ 64 := by
    cases target with
    | sysV => decide
    | win64 => decide
    | aarch64 => cases ht
  have hapart := X86.span_apart (stackLow target rsp) hsaved.1 hsaved.2
  simpa [stackLow] using hapart

/-- A run of a finished kernel. -/
theorem runs_kernel (ht : t.target.isX86) (hc : (parts t k args).Clean)
    (hf : (parts t k args).Finished code forward back) (hzero : ar.zero = 0)
    (hlen : t.len = k.vecLen) (hargs : args = .rdi ∨ args = .rcx) (s : Machine) :
    let x := Args.read s.mem (s.gpr args)
    x.Fits k → Apart (Stack t.target (s.gpr .rsp)) (x.Reads k (s.gpr args)) →
    ∃ s', Runs ar code (.at 0 s) (.left (s.mem.read64 (s.gpr .rsp)) s') ∧
      s'.gpr .rsp = s.gpr .rsp + 8 ∧
      (∀ i < k.rows, ∀ j < tileCols, s'.mem.read32 (x.word i j) = x.outcome ar t k s.mem i j) ∧
      ∀ y, (∀ i < k.rows, ∀ j < tileCols, ¬ Span (x.word i j) 4 y) →
        ¬ Span (stackLow t.target (s.gpr .rsp)) (Frame.saved t.target) y → s'.mem y = s.mem y := by
  intro x hx hapart
  have hstack : ∀ y, Span (stackLow t.target (s.gpr .rsp)) (Frame.saved t.target) y →
      Stack t.target (s.gpr .rsp) y := fun y hy => hy.mono (Nat.le_add_right _ _)
  obtain ⟨m, s₁, v₁, hopening, hm, hzf, hs₁, hv₁, hcount⟩ := opening_looping ht hc hzero hargs
    (hapart.mono hstack fun y hy => .inl hy)
  have hopened := Parts.runs_opening (parts_decodes ar ht hc) hf hopening
  rw [hzf] at hopened
  have hlooped : ∃ s₂ v₂, Runs ar code (.at 0 s) (.at (parts t k args).behind s₂) ∧
      Agree t.len.lanes (some t.scratchVreg) s₂ v₂ ∧
      Looping ar t k x m (stackLow t.target (s.gpr .rsp)) x.steps.toNat v₂ := by
    by_cases hsteps : x.steps.toNat = 0
    · rw [decide_eq_true hsteps, if_pos rfl] at hopened
      exact ⟨s₁, v₁, hopened, hs₁, hsteps ▸ hv₁⟩
    · rw [decide_eq_false hsteps, if_neg Bool.false_ne_true] at hopened
      have hleft : 0 + (x.steps.toNat - 1 + 1) = x.steps.toNat := by omega
      have hfirst : v₁.gpr .r8 = x.steps - UInt64.ofNat 0 := by rw [hcount]; simp [x]
      obtain ⟨s₂, v₂, hloop, hs₂, hv₂⟩ :=
        runs_loop ht hc hf hzero hlen (x.steps.toNat - 1) hleft hs₁ hv₁ hfirst
      exact ⟨s₂, v₂, hopened.trans ar hloop, hs₂, hv₂⟩
  obtain ⟨s₂, v₂, hruns, hs₂, hv₂⟩ := hlooped
  obtain ⟨s', hend, hrsp, hdone, hkept⟩ := runs_end ht hc hf hlen hx hs₂ hv₂
  have htop : stackLow t.target (s.gpr .rsp) + UInt64.ofNat (Frame.saved t.target) =
      s.gpr .rsp := by simp [stackLow]
  rw [htop] at hend hrsp
  -- the return address is no part of the tile
  have hreturn : s'.mem.read64 (s.gpr .rsp) = s.mem.read64 (s.gpr .rsp) := by
    refine X86.Memory.read64_congr fun y hy => ?_
    rw [hkept y, hm y]
    · exact fun hy' => return_apart ht _ y hy' hy
    · exact fun i hi j hj hy' => hapart y (stack_return hy)
        (.inr (.inr (.inr (.inr ⟨i, hi, j, hj, hy'⟩))))
  rw [hreturn] at hend
  refine ⟨s', hruns.trans ar hend, hrsp, fun i hi j hj => ?_, fun y htile hy => ?_⟩
  · rw [hdone i hi j hj]
    exact outcome_congr (fun y hy => hm y fun hy' => hapart y (hstack y hy') hy) hi hj
  · rw [hkept y htile, hm y hy]

/-- A generated kernel, called with a pointer to its arguments, returns with every word of the tile
as it is to be, and has written nothing but these words and its own stack. -/
theorem generated_computes (ar : Arith UInt32) {target : Target} {caps : IsaSet}
    {policy : KernelPolicy} {journal : Journal} {kernel : TileKernel} (hzero : ar.zero = 0)
    (ht : target.isX86)
    (hgenerate : (k.generate target caps policy journal).1 = .ok kernel)
    (hargs : target.params.head? = some args) (s : Machine)
    (hx : (Args.read s.mem (s.gpr args)).Fits k)
    (hapart : Apart (Stack target (s.gpr .rsp))
      ((Args.read s.mem (s.gpr args)).Reads k (s.gpr args))) :
    let x := Args.read s.mem (s.gpr args)
    ∃ s', Runs ar kernel.code.code.toList (.at 0 s) (.left (s.mem.read64 (s.gpr .rsp)) s') ∧
      s'.gpr .rsp = s.gpr .rsp + 8 ∧
      (∀ i < k.rows, ∀ j < tileCols,
        s'.mem.read32 (x.word i j) = x.outcome ar (table k target caps) k s.mem i j) ∧
      ∀ y, (∀ i < k.rows, ∀ j < tileCols, ¬ Span (x.word i j) 4 y) →
        ¬ Span (stackLow target (s.gpr .rsp)) (Frame.saved target) y → s'.mem y = s.mem y := by
  obtain ⟨hc, forward, back, hf⟩ := generated ar ht hargs hgenerate
  have hregister : args = .rdi ∨ args = .rcx := by
    cases target with
    | sysV => exact .inl (Option.some.inj hargs).symm
    | win64 => exact .inr (Option.some.inj hargs).symm
    | aarch64 => cases ht
  exact runs_kernel ht hc hf hzero rfl hregister s hx hapart

/-- Single precision, on the words that hold its values. -/
def singleWords : Arith UInt32 where
  zero := Single.arith.zero.bits
  mul x y := (Single.arith.mul ⟨x⟩ ⟨y⟩).bits
  add x y := (Single.arith.add ⟨x⟩ ⟨y⟩).bits
  fma x y z := (Single.arith.fma ⟨x⟩ ⟨y⟩ ⟨z⟩).bits
  isZero x := Single.arith.isZero ⟨x⟩
  ofBf16 b := (Single.arith.ofBf16 b).bits
  quantize sum alpha beta := Single.arith.quantize sum ⟨alpha⟩ ⟨beta⟩
  text x := Single.arith.text ⟨x⟩

/-- A call with two steps from 1234: arguments at 1000, panels at 2000 and 3000, tile at 4000,
columns of 64 bytes, all in hexadecimal. Its first row is 2 and 3, its first column 5 and 7; alpha
is 2, beta 4, and C starts with a half. -/
def sampleCall : Machine where
  gpr r := if r = .rdi then 0x1000 else if r = .rsp then 0x10000 else 0
  vec _ _ := 0
  zf := false
  mem y :=
    match y.toNat with
    | 0x1000 => 2
    | 0x1009 => 0x20
    | 0x1011 => 0x30
    | 0x1019 => 0x40
    | 0x1020 => 64
    | 0x102b => 0x40
    | 0x102e => 0x80
    | 0x102f => 0x40
    | 0x2003 => 0x40
    | 0x2042 => 0x40
    | 0x2043 => 0x40
    | 0x3002 => 0xa0
    | 0x3003 => 0x40
    | 0x3012 => 0xe0
    | 0x3013 => 0x40
    | 0x4003 => 0x3f
    | 0x10000 => 0x34
    | 0x10001 => 0x12
    | _ => 0

theorem sampleCall_args : Args.read sampleCall.mem 0x1000 =
    ⟨2, 0x2000, 0x3000, 0x4000, 64, 0x40000000, 0x40800000, 0⟩ := rfl

theorem sampleCall_apart : Apart (Stack .sysV 0x10000)
    ((Args.read sampleCall.mem 0x1000).Reads (.float .fma false false) 0x1000) := by
  rw [sampleCall_args]
  intro y hstack hread
  have hhigh : 0x5000 ≤ y.toNat :=
    Nat.le_trans (by decide) (X86.span_bounds (by decide) hstack).1
  have hlow : y.toNat < 0x5000 := by
    rcases hread with h | h | h | ⟨h, -⟩ | ⟨i, hi, j, hj, h⟩
    · exact Nat.lt_of_lt_of_le (X86.span_bounds (by decide) h).2 (by decide)
    · exact Nat.lt_of_lt_of_le (X86.span_bounds (by decide) h).2 (by decide)
    · exact Nat.lt_of_lt_of_le (X86.span_bounds (by decide) h).2 (by decide)
    · cases h
    · have hi' : i < 16 := hi
      have hj' : j < 4 := hj
      have htile : Span 0x4000 256 y := h.shift (show j * 64 + 4 * i + 4 ≤ 256 by omega)
      exact Nat.lt_of_lt_of_le (X86.span_bounds (by decide) htile).2 (by decide)
  omega

/-- The first word of the tile becomes 2 * (2 * 5 + 3 * 7) + 4 * 0.5. -/
theorem sampleCall_computes :
    ∃ kernel s', ((TileKey.float .fma false false).generate .sysV .full {} {}).1 = .ok kernel ∧
      Runs singleWords kernel.code.code.toList (.at 0 sampleCall) (.left 0x1234 s') ∧
      s'.gpr .rsp = 0x10008 ∧ s'.mem.read32 0x4000 = 0x42800000 := by
  have hok : ((TileKey.float .fma false false).generate .sysV .full {} {}).1.isOk = true := by
    decide +kernel
  have hsome : ∃ kernel,
      ((TileKey.float .fma false false).generate .sysV .full {} {}).1 = .ok kernel := by
    generalize ((TileKey.float .fma false false).generate .sysV .full {} {}).1 = result at hok
    cases result with
    | ok kernel => exact ⟨kernel, rfl⟩
    | error e => cases hok
  obtain ⟨kernel, hgenerate⟩ := hsome
  have hfits : (Args.read sampleCall.mem 0x1000).Fits (.float .fma false false) := by
    rw [sampleCall_args]
    exact ⟨by decide, by decide⟩
  obtain ⟨s', hruns, hrsp, htile, -⟩ := generated_computes singleWords rfl rfl hgenerate rfl
    sampleCall hfits sampleCall_apart
  have hword : (Args.read sampleCall.mem 0x1000).outcome singleWords
      (table (.float .fma false false) .sysV .full) (.float .fma false false) sampleCall.mem 0 0 =
      0x42800000 := by
    decide +kernel
  exact ⟨kernel, s', hgenerate, hruns, hrsp, (htile 0 (by decide) 0 (by decide)).trans hword⟩

end JitGemm.Tile
