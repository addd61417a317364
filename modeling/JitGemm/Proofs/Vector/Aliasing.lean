import JitGemm.Proofs.Vector.Registers

/-!
# Operations on registers that coincide

A two-source operation does the same to its registers under every lowering, also where destination
and sources are one and the same register. The legacy family and synthesized sequences overwrite a
register before the last source is read; the scratch register, or a swap of the sources, is what
keeps that source.
-/

namespace JitGemm

variable {ops : BlockOps}

-- ---------------------------------------------------------------------------
-- Two-source operations
-- ---------------------------------------------------------------------------

/-- Operations of two sources with their immediate byte, and what they do to blocks. -/
inductive Combines (ops : BlockOps) : VecOp → Option UInt8 → (Quad → Quad → Quad) → Prop
  | add : Combines ops .add none ops.add
  | sub : Combines ops .sub none ops.sub
  | mul : Combines ops .mul none ops.mul
  | paddD : Combines ops .paddD none ops.addInt
  | pmullD : Combines ops .pmullD none ops.mulInt
  | packSsdw : Combines ops .packSsdw none ops.packSigned
  | packUswb : Combines ops .packUswb none ops.packUnsigned
  | cmpGt (n : UInt8) : Combines ops .cmpGt (some n) (ops.compare n)
  | cmpGe (n : UInt8) : Combines ops .cmpGe (some n) (ops.compare n)

namespace Combines

variable {op : VecOp} {imm : Option UInt8} {k : Quad → Quad → Quad}

theorem takesImm (h : Combines ops op imm k) (low : Lowering) :
    imm.isSome = X86.takesImm (op.opcode low) := by
  cases h <;> rfl

theorem not_copy (h : Combines ops op imm k) (low : Lowering) : op.opcode low ≠ movaps := by
  cases h <;> simp [VecOp.opcode, movaps]

theorem combine? (h : Combines ops op imm k) (low : Lowering) {f : X86.Form}
    (hn : ∀ n ∈ imm, n < f.predicates) :
    (op.opcode low).combine? ops f imm = some fun _ => k := by
  cases h with
  | cmpGt n | cmpGe n => exact if_pos (hn n rfl)
  | _ => rfl

theorem comm (h : Combines ops op imm k) (hop : op.commutes) (x y : Quad) : k x y = k y x := by
  cases h with
  | add => exact ops.add_comm x y
  | mul => exact ops.mul_comm x y
  | paddD => exact ops.addInt_comm x y
  | pmullD => exact ops.mulInt_comm x y
  | _ => simp [VecOp.commutes] at hop

end Combines

namespace OpTable

variable {t : OpTable} {x : Option Vreg} {op : VecOp} {low : Lowering} {d a b : Vreg}
  {imm : Option UInt8} {k : Quad → Quad → Quad}

/-- One instruction with both sources in place: under the legacy family the destination holds the
first one. -/
theorem combine_setsTo (ht : t.target.isX86) (h : t.Native low) (hk : Combines ops op imm k)
    (hn : ∀ n ∈ imm, n < (t.form low).predicates)
    (hclean : ∀ e ∈ t.native op low d a (.reg b) imm, e.Clean) :
    t.SetsTo ops x (t.native op low d a (.reg b) imm) d fun r q =>
      k (r ⟨first low d a⟩ q) (r b q) :=
  native_setsTo ht h (hk.takesImm low) (hk.not_copy low) (hk.combine? low hn) hclean

/-- A copy of the first source into the destination, which is not the second source, and then the
operation on the two. -/
theorem copied_setsTo (ht : t.target.isX86) (h : t.Native .legacy) (hk : Combines ops op imm k)
    (hn : ∀ n ∈ imm, n < 8) (hb : d = a ∨ b ≠ d)
    (hclean : ∀ e ∈ t.move d a ++ t.native op .legacy d ⟨0⟩ (.reg b) imm, e.Clean) :
    t.SetsTo ops x (t.move d a ++ t.native op .legacy d ⟨0⟩ (.reg b) imm) d fun r q =>
      k (r a q) (r b q) := by
  have hbase : t.Native t.baseLowering := (base_legacy h).symm ▸ h
  refine (move_setsTo ht hbase fun e he => hclean e (List.mem_append_left _ he)).append (.inl rfl)
    (combine_setsTo ht h hk hn fun e he => hclean e (List.mem_append_right _ he)) ?_
  intro r u hu q hq
  have hfirst : u d q = r a q := hu.low q hq
  by_cases hbd : b = d
  · subst hbd
    obtain rfl : b = a := hb.resolve_right (by simp)
    simp [first, hfirst]
  · simp [first, hfirst, hu.others b hbd]

/-- The legacy form. Where the second source is the destination, and the first one is not, the
sources are swapped, or the second one is kept in the scratch register. -/
theorem legacyBinary_setsTo (ht : t.target.isX86) (h : t.Native .legacy)
    (hk : Combines ops op imm k) (hn : ∀ n ∈ imm, n < 8)
    (hfree : d = a ∨ b ≠ d ∨ op.commutes ∨
      x = some t.scratchVreg ∧ d ≠ t.scratchVreg ∧ a ≠ t.scratchVreg)
    (hclean : ∀ e ∈ t.legacyBinary op d a (.reg b) imm, e.Clean) :
    t.SetsTo ops x (t.legacyBinary op d a (.reg b) imm) d fun r q => k (r a q) (r b q) := by
  by_cases hswap : d ≠ a ∧ b = d
  · obtain ⟨hda, rfl⟩ := hswap
    simp only [legacyBinary, ne_eq, hda, not_false_eq_true, and_self, ↓reduceIte] at hclean ⊢
    by_cases hcomm : op.commutes
    · simp only [hcomm, ↓reduceIte] at hclean ⊢
      intro r
      obtain ⟨u, hu, hsets⟩ := combine_setsTo (x := x) ht h hk hn hclean r
      exact ⟨u, hu, hsets.congr fun q _ => hk.comm hcomm _ _⟩
    · simp only [hcomm, Bool.false_eq_true, ↓reduceIte, List.append_assoc] at hclean ⊢
      obtain ⟨hx, hb, ha⟩ : x = some t.scratchVreg ∧ b ≠ t.scratchVreg ∧ a ≠ t.scratchVreg := by
        simpa [hda, hcomm] using hfree
      have hbase : t.Native t.baseLowering := (base_legacy h).symm ▸ h
      refine (move_setsTo ht hbase fun e he => hclean e (List.mem_append_left _ he)).append
        (.inr hx.symm) (copied_setsTo ht h hk hn (.inr hb.symm) fun e he =>
          hclean e (List.mem_append_right _ he)) ?_
      intro r u hu q hq
      have hsaved : u t.scratchVreg q = r b q := hu.low q hq
      simp [hsaved, hu.others a ha]
  · have hb : d = a ∨ b ≠ d := by
      by_cases hda : d = a
      · exact .inl hda
      · exact .inr fun hbd => hswap ⟨hda, hbd⟩
    have hplain : ¬ (d ≠ a ∧ VecSource.reg b = .reg d) := by simpa using hswap
    simp only [legacyBinary, hplain, ↓reduceIte] at hclean ⊢
    exact copied_setsTo ht h hk hn hb hclean

/-- The plain arithmetic inside synthesized sequences, which needs no scratch register. -/
theorem arith_setsTo (ht : t.target.isX86) (hbase : t.Native t.baseLowering)
    (hk : Combines ops op none k) (hop : op.commutes)
    (hclean : ∀ e ∈ t.arith op d a (.reg b), e.Clean) :
    t.SetsTo ops x (t.arith op d a (.reg b)) d fun r q => k (r a q) (r b q) := by
  unfold arith at hclean ⊢
  cases hlow : t.baseLowering with
  | legacy =>
    rw [hlow] at hclean hbase
    exact legacyBinary_setsTo ht hbase hk (by simp) (.inr (.inr (.inl hop))) hclean
  | vex | evex =>
    rw [hlow] at hclean hbase
    exact combine_setsTo ht hbase hk (by simp) hclean
  | asimd | synthesized =>
    rw [hlow] at hbase
    exact hbase.elim

-- ---------------------------------------------------------------------------
-- Multiply and add
-- ---------------------------------------------------------------------------

/-- A product, then a sum. The product stays in the destination, or in the scratch register where
the destination is still to be added. -/
theorem mulThenAdd213_setsTo (ht : t.target.isX86) (hbase : t.Native t.baseLowering)
    (hd : d ≠ t.scratchVreg)
    (hclean : ∀ e ∈ t.mulThenAdd .fmadd213 d a (.reg b), e.Clean) :
    t.SetsTo ops (some t.scratchVreg) (t.mulThenAdd .fmadd213 d a (.reg b)) d fun r q =>
      ops.add (ops.mul (r d q) (r a q)) (r b q) := by
  unfold mulThenAdd at hclean ⊢
  by_cases hbd : b = d
  · subst hbd
    simp only [↓reduceIte] at hclean ⊢
    refine (arith_setsTo ht hbase .mul rfl fun e he =>
      hclean e (List.mem_append_left _ he)).append (.inr rfl) (arith_setsTo ht hbase .add rfl
        fun e he => hclean e (List.mem_append_right _ he)) ?_
    intro r u hu q hq
    have hproduct : u t.scratchVreg q = ops.mul (r b q) (r a q) := hu.low q hq
    simp [hproduct, hu.others b hd]
  · have hne : VecSource.reg b ≠ .reg d := by simpa using hbd
    simp only [hne, ↓reduceIte] at hclean ⊢
    refine (arith_setsTo ht hbase .mul rfl fun e he =>
      hclean e (List.mem_append_left _ he)).append (.inl rfl) (arith_setsTo ht hbase .add rfl
        fun e he => hclean e (List.mem_append_right _ he)) ?_
    intro r u hu q hq
    have hproduct : u d q = ops.mul (r d q) (r a q) := hu.low q hq
    simp [hproduct, hu.others b hbd]

theorem mulThenAdd231_setsTo (ht : t.target.isX86) (hbase : t.Native t.baseLowering)
    (hd : d ≠ t.scratchVreg)
    (hclean : ∀ e ∈ t.mulThenAdd .fmadd231 d a (.reg b), e.Clean) :
    t.SetsTo ops (some t.scratchVreg) (t.mulThenAdd .fmadd231 d a (.reg b)) d fun r q =>
      ops.add (ops.mul (r a q) (r b q)) (r d q) := by
  refine (arith_setsTo ht hbase .mul rfl fun e he =>
    hclean e (List.mem_append_left _ he)).append (.inr rfl) (arith_setsTo ht hbase .add rfl
      fun e he => hclean e (List.mem_append_right _ he)) ?_
  intro r u hu q hq
  have hproduct : u t.scratchVreg q = ops.mul (r a q) (r b q) := hu.low q hq
  simp [hproduct, hu.others d hd, ops.add_comm (r d q)]

/-- The fused forms. The legacy family has none. -/
theorem fused_setsTo (ht : t.target.isX86) (h : t.Native low) (hlow : low ≠ .legacy)
    {g : Quad → Quad → Quad → Quad} (hop : (op, g) = (.fmadd213, fun d x y => ops.mulAdd d x y) ∨
      (op, g) = (.fmadd231, fun d x y => ops.mulAdd x y d))
    (hclean : ∀ e ∈ t.native op low d a (.reg b) none, e.Clean) :
    t.SetsTo ops x (t.native op low d a (.reg b) none) d fun r q => g (r d q) (r a q) (r b q) := by
  have hkeeps : (t.form low).keeps = false := by
    cases low with
    | vex | evex => rfl
    | legacy => exact absurd rfl hlow
    | _ => exact h.elim
  have hfirst : first low d a = a.num := by simp [first, hlow]
  have hnative : op.opcode low ≠ movaps → (op.opcode low).combine? ops (t.form low) none = some g →
      t.SetsTo ops x (t.native op low d a (.reg b) none) d fun r q =>
        g (r d q) (r ⟨first low d a⟩ q) (r b q) := fun hcopy hg =>
    native_setsTo ht h (by rcases hop with hop | hop <;> cases hop <;> rfl) hcopy hg hclean
  rw [hfirst] at hnative
  refine hnative ?_ ?_
  · rcases hop with hop | hop <;> cases hop <;> simp [VecOp.opcode, movaps]
  · have hnot : ¬ (t.form low).keeps = true := by simp [hkeeps]
    rcases hop with hop | hop <;> cases hop <;> exact if_neg hnot

-- ---------------------------------------------------------------------------
-- Every lowering
-- ---------------------------------------------------------------------------

/-- The words of AArch64 for two sources. -/
theorem combining (hk : Combines ops op imm k) {base : UInt32} (hbase : op.asimdBase? = some base) :
    Arm64.Combining ops base fun _ => k := by
  refine ⟨base &&& 0xFFE00000, base &&& 0xFC00, ?_⟩
  cases hk <;> cases hbase <;>
    exact ⟨by decide, by decide, by decide, fun w htop hmid => by
      rw [Arm64.combine?, htop, hmid]; rfl⟩

theorem combining_mulAdd :
    Arm64.Combining ops 0x4E20CC00 fun d x y => ops.mulAdd x y d :=
  ⟨0x4E200000, 0xCC00, by decide, by decide, by decide, fun w htop hmid => by
    rw [Arm64.combine?, htop, hmid]; rfl⟩

/-- Two-source operations, but for those that are sequences, under whatever lowering. -/
theorem binary_setsTo (hk : Combines ops op imm k)
    (hn : ∀ low, t.lowering? op = some low → ∀ n ∈ imm, n < (t.form low).predicates)
    (hfree : t.lowering? op = some .legacy → d = a ∨ b ≠ d ∨ op.commutes ∨
      x = some t.scratchVreg ∧ d ≠ t.scratchVreg ∧ a ≠ t.scratchVreg)
    (hclean : ∀ e ∈ t.binary op d a (.reg b) imm, e.Clean) :
    t.SetsTo ops x (t.binary op d a (.reg b) imm) d fun r q => k (r a q) (r b q) := by
  obtain ⟨low, hlow⟩ := t.exists_lowering op (fun h => by simp [binary, h]) hclean
  simp only [binary, hlow] at hclean ⊢
  cases ht : t.target.isX86 with
  | true =>
    have hplain : ¬ Synthesizes op := by cases hk <;> simp [Synthesizes, VecOp.isFma]
    have hnative := native_of_lowering ht hlow hplain
    cases low with
    | legacy => exact legacyBinary_setsTo ht hnative hk (hn _ hlow) (hfree hlow) hclean
    | vex | evex => exact combine_setsTo ht hnative hk (hn _ hlow) hclean
    | _ => exact hnative.elim
  | false =>
    obtain ⟨rfl, hlen, -⟩ := lowering_arm ht hlow
    cases hbase : op.asimdBase? with
    | none =>
      simp only [hbase] at hclean
      exact (not_clean hclean).elim
    | some base =>
      simp only [hbase] at hclean
      exact v3_setsTo ht hlen (combining hk hbase) (hclean _ List.mem_cons_self)

/-- What a multiply-add leaves in a block, from the old block and the two sources. -/
def mulAddValue (t : OpTable) (ops : BlockOps) (op : VecOp) (d x y : Quad) : Quad :=
  let synthesized := t.lowering? op = some .synthesized
  match op with
  | .fmadd213 => if synthesized then ops.add (ops.mul d x) y else ops.mulAdd d x y
  | _ => if synthesized then ops.add (ops.mul x y) d else ops.mulAdd x y d

theorem fma_setsTo (hop : op = .fmadd213 ∨ op = .fmadd231) (hd : d ≠ t.scratchVreg)
    (hclean : ∀ e ∈ t.fma op d a (.reg b), e.Clean) :
    t.SetsTo ops (some t.scratchVreg) (t.fma op d a (.reg b)) d fun r q =>
      t.mulAddValue ops op (r d q) (r a q) (r b q) := by
  obtain ⟨low, hlow⟩ := t.exists_lowering op (fun h => by simp [fma, h]) hclean
  simp only [fma, mulAddValue, hlow] at hclean ⊢
  cases ht : t.target.isX86 with
  | true =>
    -- no multiply-add has the legacy form
    obtain ⟨hnative, hbase, -, hlegacy⟩ := lowering_native ht hlow
    cases low with
    | legacy => exact absurd (by rcases hop with rfl | rfl <;> exact .inl rfl) (hlegacy rfl)
    | vex | evex =>
      have hnative := hnative.resolve_right (by simp)
      rcases hop with rfl | rfl
      · simpa using fused_setsTo ht hnative (by simp) (.inl rfl) hclean
      · simpa using fused_setsTo ht hnative (by simp) (.inr rfl) hclean
    | synthesized =>
      rcases hop with rfl | rfl
      · simpa using mulThenAdd213_setsTo ht hbase hd hclean
      · simpa using mulThenAdd231_setsTo ht hbase hd hclean
    | asimd => exact absurd rfl (lowering_ne_asimd ht hlow)
  | false =>
    obtain ⟨rfl, hlen, -⟩ := lowering_arm ht hlow
    simp only [binary, hlow] at hclean ⊢
    rcases hop with rfl | rfl
    · exact (not_clean hclean).elim
    · have hword : t.SetsTo ops (some t.scratchVreg) [.arm (.v3 0x4E20CC00 d a b)] d _ :=
        v3_setsTo ht hlen combining_mulAdd (hclean _ List.mem_cons_self)
      exact hword

/-- The predicate of a comparison is one that the form has. -/
theorem predicate_lt (hop : op = .cmpGt ∨ op = .cmpGe) (hlow : t.lowering? op = some low)
    {legacy native : UInt8} (hlegacy : legacy < 8) (hnative : native < 32) :
    t.comparePredicate legacy native < (t.form low).predicates := by
  cases ht : t.target.isX86 with
  | false =>
    obtain ⟨rfl, hlen, hcaps⟩ := lowering_arm ht hlow
    rcases hop with rfl | rfl <;> simp [lowering?, ht, VecOp.lowerAsimd] at hlow
  | true =>
    have hplain : ¬ Synthesizes op := by
      rcases hop with rfl | rfl <;> simp [Synthesizes, VecOp.isFma]
    have hform := native_of_lowering ht hlow hplain
    cases low with
    | legacy => simpa [comparePredicate, base_legacy hform, form, X86.Form.legacy,
        X86.Form.predicates] using hlegacy
    | vex =>
      have hpredicates : (t.form .vex).predicates = 32 := by
        cases hlen : t.len <;> simp [form, X86.Form.vex, X86.Form.predicates, hlen]
      rw [hpredicates]
      unfold comparePredicate
      split
      · exact UInt8.lt_trans hlegacy (by decide)
      · exact hnative
    | evex =>
      have hlen : t.len = .v512 := hform
      rcases hop with rfl | rfl <;> simp [lowering?, ht, hlen, VecOp.lower512] at hlow
    | _ => exact hform.elim

end OpTable

-- ---------------------------------------------------------------------------
-- Calls
-- ---------------------------------------------------------------------------

/-- The calls that make a register of two others, and of what it held before. -/
inductive Combination where
  | add
  | sub
  | mul
  | paddD
  | pmullD
  | packSsdw
  | packUswb
  | cmpGt
  | cmpGe
  | fmadd213
  | fmadd231
  deriving DecidableEq, Repr

namespace Combination

def call (c : Combination) (d a b : Vreg) : VecCall :=
  match c with
  | add => .add d a (.reg b)
  | sub => .sub d a (.reg b)
  | mul => .mul d a (.reg b)
  | paddD => .paddD d a (.reg b)
  | pmullD => .pmullD d a (.reg b)
  | packSsdw => .packSsdw d a (.reg b)
  | packUswb => .packUswb d a (.reg b)
  | cmpGt => .cmpGt d a (.reg b)
  | cmpGe => .cmpGe d a (.reg b)
  | fmadd213 => .fmadd213 d a (.reg b)
  | fmadd231 => .fmadd231 d a (.reg b)

/-- The new block, from the old one and those of the two sources. -/
def value (c : Combination) (t : OpTable) (ops : BlockOps) (d x y : Quad) : Quad :=
  match c with
  | add => ops.add x y
  | sub => ops.sub x y
  | mul => ops.mul x y
  | paddD => ops.addInt x y
  | pmullD => ops.mulInt x y
  | packSsdw => ops.packSigned x y
  | packUswb => ops.packUnsigned x y
  | cmpGt => ops.compare (t.comparePredicate 6 0x0E) x y
  | cmpGe => ops.compare (t.comparePredicate 5 0x0D) x y
  | fmadd213 => t.mulAddValue ops .fmadd213 d x y
  | fmadd231 => t.mulAddValue ops .fmadd231 d x y

theorem setsTo (c : Combination) {t : OpTable} {d a b : Vreg} (hd : d ≠ t.scratchVreg)
    (ha : a ≠ t.scratchVreg) (hclean : ∀ e ∈ t.vector (c.call d a b), e.Clean) :
    t.SetsTo ops (some t.scratchVreg) (t.vector (c.call d a b)) d fun r q =>
      c.value t ops (r d q) (r a q) (r b q) := by
  have hplain : ∀ {op : VecOp} {k : Quad → Quad → Quad}, Combines ops op none k →
      (∀ e ∈ t.binary op d a (.reg b) none, e.Clean) →
      t.SetsTo ops (some t.scratchVreg) (t.binary op d a (.reg b) none) d fun r q =>
        k (r a q) (r b q) := fun hk hclean =>
    OpTable.binary_setsTo hk (by simp) (fun _ => .inr (.inr (.inr ⟨rfl, hd, ha⟩))) hclean
  cases c with
  | add => exact hplain .add hclean
  | sub => exact hplain .sub hclean
  | mul => exact hplain .mul hclean
  | paddD => exact hplain .paddD hclean
  | pmullD => exact hplain .pmullD hclean
  | packSsdw => exact hplain .packSsdw hclean
  | packUswb => exact hplain .packUswb hclean
  | cmpGt =>
    refine OpTable.binary_setsTo (.cmpGt _) (fun low hlow n hn => ?_)
      (fun _ => .inr (.inr (.inr ⟨rfl, hd, ha⟩))) hclean
    obtain rfl := Option.some.inj hn
    exact OpTable.predicate_lt (.inl rfl) hlow (by decide) (by decide)
  | cmpGe =>
    refine OpTable.binary_setsTo (.cmpGe _) (fun low hlow n hn => ?_)
      (fun _ => .inr (.inr (.inr ⟨rfl, hd, ha⟩))) hclean
    obtain rfl := Option.some.inj hn
    exact OpTable.predicate_lt (.inr rfl) hlow (by decide) (by decide)
  | fmadd213 => exact OpTable.fma_setsTo (.inl rfl) hd hclean
  | fmadd231 => exact OpTable.fma_setsTo (.inr rfl) hd hclean

/-- When no error is left, the code of a combination sets its destination to the operation on what
the registers held before, however many of the three are the same, and changes no other register but
the scratch register. Under every lowering the sources are read before they are overwritten. The
second source may even be the scratch register. -/
theorem code_sets_destination (ops : BlockOps) (g : Generator) (c : Combination) {d a b : Vreg}
    (hd : d ≠ g.table.scratchVreg) (ha : a ≠ g.table.scratchVreg)
    (hok : (g.vector (c.call d a b)).buffer.error = none) :
    ∃ code, (g.vector (c.call d a b)).buffer.bytes.toList = g.buffer.bytes.toList ++ code ∧
      ∀ r : Registers, ∃ r', r.run? ops g.table.target code = some r' ∧
        (∀ q : Fin 4, 4 * q.val < g.table.len.lanes →
          r' d q = c.value g.table ops (r d q) (r a q) (r b q)) ∧
        ∀ v, v ≠ d → v ≠ g.table.scratchVreg → r' v = r v := by
  refine ⟨_, g.bytes_vector _, fun r => ?_⟩
  have hsets : g.table.SetsTo ops (some g.table.scratchVreg) (g.table.vector (c.call d a b)) d _ :=
    c.setsTo hd ha (ok_foldl hok).2
  obtain ⟨r', htakes, hsets⟩ := hsets r
  exact ⟨r', htakes.run, hsets.low, fun v hv hx => hsets.others v hv (by simpa using hx)⟩

/-- A comparison onto its second source, where the scratch register is needed. -/
theorem cmpGt_onto_second :
    let g : Generator := { name := "k", origin := "k", table := ⟨.sysV, .v128, .empty⟩ }
    let c : VecCall := Combination.cmpGt.call ⟨2⟩ ⟨1⟩ ⟨2⟩
    ⟨2⟩ ≠ g.table.scratchVreg ∧ ⟨1⟩ ≠ g.table.scratchVreg ∧ (g.vector c).buffer.error = none ∧
      ∃ code, (g.vector c).buffer.bytes.toList = g.buffer.bytes.toList ++ code ∧
        ∀ r : Registers, ∃ r', r.run? BlockOps.words g.table.target code = some r' ∧
          (∀ q : Fin 4, 4 * q.val < g.table.len.lanes →
            r' ⟨2⟩ q = BlockOps.words.compare 6 (r ⟨1⟩ q) (r ⟨2⟩ q)) ∧
          ∀ v, v ≠ ⟨2⟩ → v ≠ g.table.scratchVreg → r' v = r v := by
  intro g c
  have hok : (g.vector c).buffer.error = none := by decide
  have hpredicate : g.table.comparePredicate 6 0x0E = 6 := by decide
  have hcode := code_sets_destination BlockOps.words g .cmpGt (d := ⟨2⟩) (a := ⟨1⟩) (b := ⟨2⟩)
    (by decide) (by decide) hok
  simp only [value, hpredicate] at hcode
  exact ⟨by decide, by decide, hok, hcode⟩

end Combination

end JitGemm
