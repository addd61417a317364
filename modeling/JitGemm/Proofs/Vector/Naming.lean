import JitGemm.Proofs.Vector.NamedRegisters

/-!
# The registers that vector code names

Read back from its bytes, the code of a lane operation names the registers of the call, and beyond
them at most the scratch register of a sequence: what an encoding cannot name is an error. The mask
of a blend is the exception. Under VEX it travels in the high half of an immediate byte, which no
encoder looks at, and a number above 15 loses its high bits there.
-/

namespace JitGemm

open X86 (Opcode Rm)

-- ---------------------------------------------------------------------------
-- Stretches of code
-- ---------------------------------------------------------------------------

/-- Code whose instructions name the registers `nss`, whatever follows it. -/
def Target.Names (t : Target) (code : List UInt8) (nss : List (List Vreg)) : Prop :=
  ∃ is, t.Fetches code is ∧ is.mapM Fetched.vregs? = some nss

namespace Target.Names

variable {t : Target} {code code' : List UInt8} {nss nss' : List (List Vreg)}

theorem named (h : t.Names code nss) : t.named? code = some nss := by
  obtain ⟨is, hfetch, hnames⟩ := h
  rw [named?, hfetch.fetchAll, Option.bind_some, hnames]

theorem nil : t.Names [] [] := ⟨[], .nil, rfl⟩

theorem append (h : t.Names code nss) (h' : t.Names code' nss') :
    t.Names (code ++ code') (nss ++ nss') := by
  obtain ⟨is, hfetch, hnames⟩ := h
  obtain ⟨is', hfetch', hnames'⟩ := h'
  exact ⟨is ++ is', hfetch.append hfetch', by simp [List.mapM_append, hnames, hnames']⟩

end Target.Names

namespace OpTable

variable {t : OpTable}

theorem names_x86 (ht : t.target.isX86) {i : X86.Instr} (hi : i.Regular)
    (hclean : (Emission.x86 i).Clean) {ns : List Vreg} (h : i.vregs? = some ns) :
    t.target.Names (Emission.x86 i).bytes [ns] := by
  refine ⟨[.x86 (.plain i.canonical)], Target.fetches_x86 ht (hi.decodes hclean), ?_⟩
  simp [hi.canonical, Fetched.vregs?, h]

theorem names_arm (ht : t.target.isX86 = false) {i : Arm64.Instr} {nss : List (List Vreg)}
    (h : i.words.mapM Arm64.wordVregs? = some nss) :
    t.target.Names (Emission.arm i).bytes nss := by
  refine ⟨i.words.map .word, ?_, ?_⟩
  · rw [Emission.bytes, i.bytes_words]
    exact fetches_words ht i.words
  · rw [List.mapM_map]
    exact h

/-- Emissions whose code names the registers `vs` and, where they are a sequence, at most the
scratch register beyond them. -/
def Covers (t : OpTable) (es : List Emission) (vs : List Vreg) : Prop :=
  (∀ e ∈ es, e.Clean) → ∃ nss, t.target.Names (blockBytes es) nss ∧ es.length ≤ nss.length ∧
    (∀ v ∈ nss.flatten, v ∈ vs ∨ v = t.scratchVreg ∧ 2 ≤ es.length) ∧ ∀ v ∈ vs, v ∈ nss.flatten

namespace Covers

variable {es fs : List Emission} {vs ws : List Vreg}

theorem nil : t.Covers [] [] := fun _ => ⟨[], .nil, by simp⟩

theorem fail (e : CodeError) (vs : List Vreg) : t.Covers [.fail e] vs := fun hclean =>
  (hclean _ List.mem_cons_self).elim

theorem append (h : t.Covers es vs) (h' : t.Covers fs ws) : t.Covers (es ++ fs) (vs ++ ws) := by
  intro hclean
  rw [List.forall_mem_append] at hclean
  obtain ⟨nss, hnames, hlen, hsub, hall⟩ := h hclean.1
  obtain ⟨nss', hnames', hlen', hsub', hall'⟩ := h' hclean.2
  refine ⟨nss ++ nss', blockBytes_append es fs ▸ hnames.append hnames', ?_, ?_, ?_⟩
  · simp only [List.length_append]
    omega
  · simp only [List.flatten_append, List.mem_append, List.length_append]
    rintro v (hv | hv)
    · exact (hsub v hv).imp .inl fun hs => ⟨hs.1, by omega⟩
    · exact (hsub' v hv).imp .inr fun hs => ⟨hs.1, by omega⟩
  · simp only [List.flatten_append, List.mem_append]
    exact fun v hv => hv.imp (hall v) (hall' v)

/-- The same registers said otherwise; a sequence may drop the scratch register. -/
theorem congr (h : t.Covers es vs)
    (hsub : ∀ v ∈ vs, v ∈ ws ∨ v = t.scratchVreg ∧ 2 ≤ es.length) (hall : ∀ v ∈ ws, v ∈ vs) :
    t.Covers es ws := by
  intro hclean
  obtain ⟨nss, hnames, hlen, hsub', hall'⟩ := h hclean
  exact ⟨nss, hnames, hlen, fun v hv => (hsub' v hv).elim (hsub v) .inr,
    fun v hv => hall' v (hall v hv)⟩

/-- Two parts with an instruction each may name the scratch register. -/
theorem sequence (h : t.Covers es vs) (h' : t.Covers fs ws) (hes : es ≠ []) (hfs : fs ≠ [])
    {us : List Vreg} (hsub : ∀ v ∈ vs ++ ws, v ∈ us ∨ v = t.scratchVreg)
    (hall : ∀ v ∈ us, v ∈ vs ++ ws) : t.Covers (es ++ fs) us := by
  have hlen : 2 ≤ (es ++ fs).length := by
    have hes := List.length_pos_iff.mpr hes
    have hfs := List.length_pos_iff.mpr hfs
    rw [List.length_append]
    omega
  exact (h.append h').congr (fun v hv => (hsub v hv).imp_right fun hs => ⟨hs, hlen⟩) hall

end Covers

-- ---------------------------------------------------------------------------
-- Single instructions
-- ---------------------------------------------------------------------------

variable {op : VecOp} {low : Lowering} {d a : Vreg} {b : VecSource} {imm : Option UInt8}

theorem covers_x86 (ht : t.target.isX86) {i : X86.Instr} (hi : i.Regular) {ns : List Vreg}
    (h : i.vregs? = some ns) : t.Covers [.x86 i] ns := by
  intro hclean
  refine ⟨[ns], ?_, by simp, by simp +contextual, by simp⟩
  simpa using names_x86 ht hi (hclean _ List.mem_cons_self) h

theorem covers_arm (ht : t.target.isX86 = false) {i : Arm64.Instr} (hi : i.Legible) :
    t.Covers [.arm i] i.vregs := by
  intro hclean
  obtain ⟨nss, hnames, hne, hiff⟩ := hi.names_words (hclean _ List.mem_cons_self)
  refine ⟨nss, ?_, List.length_pos_iff.mpr hne, fun v hv => .inl ((hiff v).mp hv),
    fun v hv => (hiff v).mpr hv⟩
  simpa using names_arm ht hnames

theorem covers_native (ht : t.target.isX86) (himm : imm.isSome = X86.takesImm (op.opcode low))
    {vs : List Vreg}
    (h : ∀ i, .x86 i ∈ t.native op low d a b imm → X86.Instr.vregs? i = some vs) :
    t.Covers (t.native op low d a b imm) vs := by
  have hregular : ∀ i, .x86 i ∈ t.native op low d a b imm → X86.Instr.Regular i := fun i hi =>
    native_regular himm hi
  cases low with
  | legacy | vex | evex =>
    exact covers_x86 ht (hregular _ List.mem_cons_self) (h _ List.mem_cons_self)
  | asimd | synthesized => exact .fail _ _

theorem vregs_ofSource (b : VecSource) : (Rm.ofSource b).vregs = b.vregs := by
  cases b <;> rfl

theorem covers_native_unary (ht : t.target.isX86)
    (himm : imm.isSome = X86.takesImm (op.opcode low))
    (hop : (op.opcode low).operands? = some .unary) :
    t.Covers (t.native op low d ⟨0⟩ b imm) (d :: b.vregs) := by
  refine covers_native ht himm fun i hi => ?_
  cases low with
  | legacy | vex | evex =>
    simp only [native, List.mem_singleton, Emission.x86.injEq] at hi
    simp [hi, X86.Instr.vregs?, X86.Opcode.named?, hop, vregs_ofSource]
  | asimd | synthesized => simp [native, Emission.refuse] at hi

theorem covers_native_binary (ht : t.target.isX86)
    (himm : imm.isSome = X86.takesImm (op.opcode low))
    (hop : (op.opcode low).operands? = some .binary) :
    t.Covers (t.native op low d a b imm)
      (d :: if low = .legacy then b.vregs else a :: b.vregs) := by
  refine covers_native ht himm fun i hi => ?_
  cases low with
  | legacy | vex | evex =>
    simp only [native, List.mem_singleton, Emission.x86.injEq] at hi
    simp [hi, X86.Instr.vregs?, X86.Opcode.named?, hop, vregs_ofSource]
  | asimd | synthesized => simp [native, Emission.refuse] at hi

theorem covers_move (hne : d ≠ a) : t.Covers (t.move d a) [d, a] := by
  simp only [move, hne, ↓reduceIte]
  cases ht : t.target.isX86 with
  | true =>
    simp only [↓reduceIte]
    rcases t.base_cases with ⟨hlow, -⟩ | ⟨hlow, -⟩ | ⟨hlow, -⟩ <;>
      simp only [hlow] <;>
      exact covers_x86 ht (by simp +decide [X86.Instr.Regular, X86.Opcode.IsEscape]) rfl
  | false =>
    simp only [Bool.false_eq_true, ↓reduceIte]
    have hlegible : (Arm64.Instr.v3 orrBase d a a).Legible :=
      ⟨⟨by decide, by decide, by decide⟩, by decide⟩
    refine (covers_arm ht hlegible).congr ?_ ?_ <;> simp [Arm64.Instr.vregs]

/-- A copy of a register to itself is of no instructions. -/
theorem covers_copy (d a : Vreg) : t.Covers (t.move d a) (if d = a then [] else [d, a]) := by
  split
  · rename_i hsame
    simpa [move, hsame] using Covers.nil
  · rename_i hne
    exact covers_move hne

-- ---------------------------------------------------------------------------
-- Loads and stores of AArch64
-- ---------------------------------------------------------------------------

section

variable (ht : t.target.isX86 = false) (m : Address)
include ht

theorem covers_armAddress (size : Int32) : t.Covers (t.target.armAddress m size).1 [] := by
  have hsum : ∀ (imm : UInt64) (s n : Gpr), t.Covers [.arm (.movImm s imm), .arm (.add s n s)] [] :=
    fun imm s n => (covers_arm ht (i := .movImm s imm) trivial).append
      (covers_arm ht (i := .add s n s) trivial)
  unfold Target.armAddress
  split
  · exact .fail _ _
  · split
    · exact .nil
    · split
      · exact .fail _ _
      · exact hsum _ _ _

theorem covers_armLoad (d : Vreg) : t.Covers (t.armLoad d m) [d] :=
  (covers_armAddress ht m 16).append (covers_arm ht (i := .ldrQ d _ _) trivial)

theorem covers_armStore (s : Vreg) : t.Covers (t.armStore m s) [s] :=
  (covers_armAddress ht m 16).append (covers_arm ht (i := .strQ s _ _) trivial)

theorem covers_armBroadcast (d : Vreg) : t.Covers (t.armBroadcast d m) [d] := by
  have hload : ∀ n : Gpr, t.Covers [.arm (.ld1r4s d n)] [d] := fun n => covers_arm ht trivial
  have hform : t.Covers (armFormAddress t.target.scratchGpr m) [] := by
    unfold armFormAddress
    split
    · exact .fail _ _
    · split
      · exact covers_arm ht (i := .addImm _ _ _) trivial
      · exact (covers_arm ht (i := .movImm _ _) trivial).append
          (covers_arm ht (i := .add _ _ _) trivial)
  unfold armBroadcast
  split
  · exact hload _
  · exact hform.append (hload _)

end

theorem legible_asimd {base : UInt32} (h : op.asimdBase? = some base) (d n m : Vreg) :
    (Arm64.Instr.v3 base d n m).Legible := by
  cases op <;> cases h <;> exact ⟨⟨by decide, by decide, by decide⟩, by decide⟩

theorem covers_armBinary (ht : t.target.isX86 = false) {base : UInt32}
    (h : op.asimdBase? = some base) (d a : Vreg) (b : VecSource) :
    t.Covers (t.armBinary base d a b) (d :: a :: b.vregs) := by
  cases b with
  | reg b => exact covers_arm ht (legible_asimd h d a b)
  | mem m =>
    refine (covers_armLoad ht m t.scratchVreg).sequence
      (covers_arm ht (legible_asimd h d a t.scratchVreg)) ?_ ?_ ?_ ?_ <;>
      simp [Arm64.Instr.vregs, armLoad]

-- ---------------------------------------------------------------------------
-- Two sources
-- ---------------------------------------------------------------------------

theorem native_ne_nil : t.native op low d a b imm ≠ [] := by
  cases low <;> simp [native]

theorem move_ne_nil (hne : d ≠ a) : t.move d a ≠ [] := by
  simp only [move, hne, ↓reduceIte]
  split
  · split <;> simp
  · simp

theorem covers_legacyBinary (ht : t.target.isX86)
    (himm : imm.isSome = X86.takesImm (op.opcode .legacy))
    (hop : (op.opcode .legacy).operands? = some .binary) :
    t.Covers (t.legacyBinary op d a b imm) (d :: a :: b.vregs) := by
  have hinstr : ∀ b : VecSource, t.Covers (t.native op .legacy d ⟨0⟩ b imm) (d :: b.vregs) :=
    fun b => by simpa using covers_native_binary (a := ⟨0⟩) ht himm hop
  unfold legacyBinary
  split
  · rename_i hclash
    obtain ⟨hne, rfl⟩ := hclash
    split
    · refine (hinstr (.reg a)).congr ?_ ?_ <;> simp
    · -- the second source is saved, unless it is the scratch register itself
      refine ((covers_copy t.scratchVreg d).append (covers_copy d a)).sequence
        (hinstr (.reg t.scratchVreg)) (by simp [move_ne_nil hne]) native_ne_nil ?_ ?_
      · split <;> simp [hne]
      · simp [hne]
  · refine ((covers_copy d a).append (hinstr b)).congr ?_ ?_
    · split <;> simp +contextual
    · split <;> simp_all +contextual

theorem legacyBinary_ne_nil : t.legacyBinary op d a b imm ≠ [] := by
  unfold legacyBinary
  split
  · split <;> simp [native_ne_nil]
  · simp [native_ne_nil]

theorem covers_binary (himm : ∀ low, imm.isSome = X86.takesImm (op.opcode low))
    (hop : ∀ low, (op.opcode low).operands? = some .binary) :
    t.Covers (t.binary op d a b imm) (d :: a :: b.vregs) := by
  unfold binary
  cases hlow : t.lowering? op with
  | none => exact .fail _ _
  | some low =>
    cases ht : t.target.isX86 with
    | false =>
      obtain ⟨rfl, -⟩ := lowering_arm ht hlow
      simp only
      split
      · rename_i base hbase
        exact covers_armBinary ht hbase d a b
      · exact .fail _ _
    | true =>
      cases low with
      | legacy => exact covers_legacyBinary ht (himm _) (hop _)
      | vex | evex => exact covers_native_binary ht (himm _) (hop _)
      | synthesized => exact .fail _ _
      | asimd => exact absurd rfl (lowering_ne_asimd ht hlow)

-- ---------------------------------------------------------------------------
-- Multiply and add
-- ---------------------------------------------------------------------------

theorem covers_arith (ht : t.target.isX86) {plain : VecOp} (hplain : plain = .add ∨ plain = .mul) :
    t.Covers (t.arith plain d a b) (d :: a :: b.vregs) := by
  have himm : ∀ low, (none : Option UInt8).isSome = X86.takesImm (plain.opcode low) := by
    rcases hplain with rfl | rfl <;> exact fun _ => rfl
  have hop : ∀ low, (plain.opcode low).operands? = some .binary := by
    rcases hplain with rfl | rfl <;> exact fun _ => rfl
  unfold arith
  cases t.baseLowering with
  | legacy => exact covers_legacyBinary ht (himm _) (hop _)
  | vex | evex | asimd | synthesized => exact covers_native_binary ht (himm _) (hop _)

theorem arith_ne_nil : t.arith op d a b ≠ [] := by
  unfold arith
  split
  · exact legacyBinary_ne_nil
  · exact native_ne_nil

theorem covers_mulThenAdd (ht : t.target.isX86) (fma : VecOp) :
    t.Covers (t.mulThenAdd fma d a b) (d :: a :: b.vregs) := by
  have hsteps : ∀ {e x y : Vreg} {u v : VecSource},
      (∀ w ∈ (e :: x :: u.vregs) ++ (d :: y :: v.vregs),
        w ∈ d :: a :: b.vregs ∨ w = t.scratchVreg) →
      (∀ w ∈ d :: a :: b.vregs, w ∈ (e :: x :: u.vregs) ++ (d :: y :: v.vregs)) →
      t.Covers (t.arith .mul e x u ++ t.arith .add d y v) (d :: a :: b.vregs) :=
    (covers_arith ht (.inr rfl)).sequence (covers_arith ht (.inl rfl)) arith_ne_nil arith_ne_nil
  unfold mulThenAdd
  cases fma with
  | fmadd213 =>
    simp only
    split
    · rename_i hb
      subst hb
      refine hsteps ?_ ?_ <;> simp
    · refine hsteps ?_ ?_ <;> simp +contextual
  | _ => refine hsteps ?_ ?_ <;> simp +contextual [or_imp]

theorem covers_fma (himm : ∀ low, (none : Option UInt8).isSome = X86.takesImm (op.opcode low))
    (hop : ∀ low, (op.opcode low).operands? = some .binary) :
    t.Covers (t.fma op d a b) (d :: a :: b.vregs) := by
  unfold fma
  cases hlow : t.lowering? op with
  | none => exact .fail _ _
  | some low =>
    cases ht : t.target.isX86 with
    | false =>
      obtain ⟨rfl, -⟩ := lowering_arm ht hlow
      exact covers_binary himm hop
    | true =>
      cases low with
      | legacy => exact .fail _ _
      | vex | evex => exact covers_native_binary ht (himm _) (hop _)
      | synthesized => exact covers_mulThenAdd ht op
      | asimd => exact covers_binary himm hop

-- ---------------------------------------------------------------------------
-- One source
-- ---------------------------------------------------------------------------

theorem covers_synthBroadcast (ht : t.target.isX86) :
    t.Covers (t.synthBroadcast op d b) (d :: b.vregs) := by
  have hlegacy : ∀ {opcode : Opcode} {rm : Rm} {imm : Option UInt8} {ns : List Vreg},
      opcode ∈ [movss, shufps, movd, pshufd] → imm.isSome = X86.takesImm opcode →
      (X86.Instr.sse opcode d.num rm imm).vregs? = some ns →
      t.Covers [.x86 (.sse opcode d.num rm imm)] ns := by
    intro opcode rm imm ns hop himm hns
    simp only [List.mem_cons, List.not_mem_nil, or_false] at hop
    refine covers_x86 (i := .sse opcode d.num rm imm) ht ⟨himm, ?_⟩ hns
    rcases hop with rfl | rfl | rfl | rfl <;> simp +decide [X86.Opcode.IsEscape]
  have hvex : ∀ {opcode : Opcode} {l256 : Bool} {v : UInt8} {rm : Rm} {imm : Option UInt8}
      {ns : List Vreg}, opcode ∈ [shufps, movd, pshufd, insertf128] →
      imm.isSome = X86.takesImm opcode →
      (X86.Instr.vex opcode false l256 d.num v rm imm).vregs? = some ns →
      t.Covers [.x86 (.vex opcode false l256 d.num v rm imm)] ns := by
    intro opcode l256 v rm imm ns hop himm hns
    simp only [List.mem_cons, List.not_mem_nil, or_false] at hop
    refine covers_x86 (i := .vex opcode false l256 d.num v rm imm) ht ⟨himm, ?_⟩ hns
    rcases hop with rfl | rfl | rfl | rfl <;> decide
  have hpair : ∀ {e f : Emission} {vs ws us : List Vreg}, t.Covers [e] vs → t.Covers [f] ws →
      (∀ v ∈ vs ++ ws, v ∈ us) → (∀ v ∈ us, v ∈ vs ++ ws) → t.Covers [e, f] us :=
    fun he hf hsub hall => (he.append hf).congr (fun v hv => .inl (hsub v hv)) hall
  unfold synthBroadcast
  split
  · exact hpair (hlegacy (by simp) rfl rfl) (hlegacy (by simp) rfl rfl) (by simp [Rm.vregs])
      (by simp)
  · rename_i s
    split
    · have hshuffle :
          t.Covers [.x86 (.vex shufps false false d.num s.num (.reg s.num) (some 0))] [d, s, s] :=
        hvex (by simp) rfl rfl
      split
      · exact hpair hshuffle (hvex (by simp) rfl rfl) (by simp [Rm.vregs]) (by simp)
      · exact hshuffle.congr (by simp) (by simp)
    · refine ((covers_copy d s).append (hlegacy (by simp) rfl rfl)).congr ?_ ?_
      · split <;> simp [Rm.vregs]
      · split <;> simp_all
  · split
    · exact hpair (hvex (by simp) rfl rfl) (hvex (by simp) rfl rfl) (by simp [Rm.vregs]) (by simp)
    · exact hpair (hlegacy (by simp) rfl rfl) (hlegacy (by simp) rfl rfl) (by simp [Rm.vregs])
        (by simp)
  · split
    · exact hvex (by simp) rfl rfl
    · exact hlegacy (by simp) rfl rfl
  · exact .fail _ _

/-- Loads of a register are copies, which may be of nothing. -/
theorem covers_armUnary (ht : t.target.isX86 = false)
    (hb : op = .load ∨ op = .intLoad → ∃ m, b = .mem m) :
    t.Covers (t.armUnary op d b) (d :: b.vregs) := by
  unfold armUnary
  split
  · exact covers_armLoad ht _ d
  · exact covers_armLoad ht _ d
  · obtain ⟨m, hm⟩ := hb (.inl rfl)
    cases hm
  · obtain ⟨m, hm⟩ := hb (.inr rfl)
    cases hm
  · exact covers_armBroadcast ht _ d
  · exact covers_arm ht (i := .v2 dupBase d _) ⟨⟨by decide, by decide⟩, by decide⟩
  · exact .fail _ _

theorem covers_unary
    (himm : ∀ low, t.lowering? op = some low → imm.isSome = X86.takesImm (op.opcode low))
    (hop : ∀ low, (op.opcode low).operands? = some .unary)
    (hb : op = .load ∨ op = .intLoad → ∃ m, b = .mem m) :
    t.Covers (t.unary op d b imm) (d :: b.vregs) := by
  unfold unary
  cases hlow : t.lowering? op with
  | none => exact .fail _ _
  | some low =>
    cases ht : t.target.isX86 with
    | false =>
      obtain ⟨rfl, -⟩ := lowering_arm ht hlow
      exact covers_armUnary ht hb
    | true =>
      cases low with
      | legacy | vex | evex => exact covers_native_unary ht (himm _ hlow) (hop _)
      | synthesized => exact covers_synthBroadcast ht
      | asimd => exact absurd rfl (lowering_ne_asimd ht hlow)

theorem covers_storeTo (hop : op = .store ∨ op = .intStore) (m : Address) :
    t.Covers (t.storeTo op m d) [d] := by
  unfold storeTo
  cases hlow : t.lowering? op with
  | none => exact .fail _ _
  | some low =>
    cases ht : t.target.isX86 with
    | false =>
      obtain ⟨rfl, -⟩ := lowering_arm ht hlow
      exact covers_armStore ht m d
    | true =>
      have hnat : t.Covers (t.native op low d ⟨0⟩ (.mem m) none) [d] :=
        covers_native_unary ht (by rcases hop with rfl | rfl <;> rfl)
          (by rcases hop with rfl | rfl <;> rfl)
      cases low with
      | legacy | vex | evex | synthesized => exact hnat
      | asimd => exact absurd rfl (lowering_ne_asimd ht hlow)

theorem covers_clear : t.Covers (t.clear d) [d] := by
  unfold clear
  cases hlow : t.lowering? .zero with
  | none => exact .fail _ _
  | some low =>
    cases ht : t.target.isX86 with
    | false =>
      obtain ⟨rfl, -⟩ := lowering_arm ht hlow
      exact covers_arm ht (i := .moviZero d) trivial
    | true =>
      have hnat : t.Covers (t.native .zero low d d (.reg d) none) [d] := by
        refine (covers_native_binary ht (by cases low <;> rfl) (by cases low <;> rfl)).congr ?_ ?_
        · split <;> simp
        · simp
      cases low with
      | legacy | vex | evex | synthesized => exact hnat
      | asimd => exact absurd rfl (lowering_ne_asimd ht hlow)

-- ---------------------------------------------------------------------------
-- Blends
-- ---------------------------------------------------------------------------

/-- What the high half of a byte has room for. -/
theorem shift_mask (n : UInt8) : n <<< 4 >>> 4 = n &&& 15 :=
  X86.forall_byte (m := 256) (P := fun n => n <<< 4 >>> 4 = n &&& 15) (by decide +kernel)
    n.toNat_lt

/-- A blend is one instruction, and none of its registers is above 15. -/
theorem blend_instr {mask : Vreg} (hclean : ∀ e ∈ t.blend d b mask, e.Clean) :
    t.target.isX86 ∧ ∃ i ns, t.blend d b mask = [.x86 i] ∧ i.Regular ∧ i.vregs? = some ns ∧
      (∀ v, v ∈ ns ↔ v ∈ d :: b.vregs ++ [⟨mask.num &&& 15⟩]) ∧ ∀ v ∈ ns, v.num ≤ 15 := by
  have hrm : ∀ {b : VecSource}, X86.regAbove 15 (.ofSource b) = false →
      ∀ v ∈ b.vregs, v.num ≤ 15 := by
    intro b hb v hv
    cases b with
    | reg w =>
      obtain rfl := List.mem_singleton.mp hv
      simpa [Rm.ofSource, X86.regAbove] using hb
    | mem m => cases hv
  obtain ⟨low, hlow⟩ := t.exists_lowering .blend (fun h => by simp [blend, h]) hclean
  simp only [blend, hlow] at hclean ⊢
  have ht : t.target.isX86 := by
    refine eq_true_of_ne_false fun ht => ?_
    simp [lowering?, ht, VecOp.lowerAsimd] at hlow
  refine ⟨ht, ?_⟩
  cases low with
  | legacy =>
    simp only at hclean ⊢
    split at hclean
    · rename_i hmask
      subst hmask
      obtain ⟨hd, hb, -⟩ := X86.sse_clean (hclean _ List.mem_cons_self)
      refine ⟨_, d :: b.vregs ++ [⟨0⟩], rfl, ?_, ?_, by simp, ?_⟩
      · simp +decide [X86.Instr.Regular, X86.Opcode.IsEscape]
      · simp [X86.Instr.vregs?, vregs_ofSource, VecOp.opcode, X86.Opcode.operands?]
      · exact List.forall_mem_cons.mpr ⟨hd, List.forall_mem_append.mpr ⟨hrm hb, by simp⟩⟩
    · exact (hclean _ List.mem_cons_self).elim
  | vex =>
    obtain ⟨hd, -, hb, -⟩ := X86.vex_clean (hclean _ List.mem_cons_self)
    refine ⟨_, d :: d :: b.vregs ++ [⟨mask.num &&& 15⟩], rfl, ⟨rfl, by decide⟩, ?_, by simp, ?_⟩
    · simp [X86.Instr.vregs?, X86.Opcode.named?, vregs_ofSource, VecOp.opcode,
        X86.Opcode.operands?, shift_mask]
    · exact List.forall_mem_cons.mpr ⟨hd, List.forall_mem_cons.mpr ⟨hd,
        List.forall_mem_append.mpr ⟨hrm hb, by simpa using UInt8.and_le_right⟩⟩⟩
  | evex =>
    obtain ⟨-, -, hevex⟩ := caps_of_lowering ht hlow
    exact absurd rfl (hevex rfl).2.2.2.2
  | synthesized => exact (hclean _ List.mem_cons_self).elim
  | asimd => exact absurd rfl (lowering_ne_asimd ht hlow)

theorem covers_blend (mask : Vreg) :
    t.Covers (t.blend d b mask) (d :: b.vregs ++ [⟨mask.num &&& 15⟩]) := by
  intro hclean
  obtain ⟨ht, i, ns, hes, hregular, hns, hiff, -⟩ := blend_instr hclean
  have hcovers : t.Covers [.x86 i] (d :: b.vregs ++ [⟨mask.num &&& 15⟩]) :=
    (covers_x86 ht hregular hns).congr (fun v hv => .inl ((hiff v).mp hv)) fun v hv =>
      (hiff v).mpr hv
  rw [hes] at hclean ⊢
  exact hcovers hclean

end OpTable

-- ---------------------------------------------------------------------------
-- Calls
-- ---------------------------------------------------------------------------

namespace VecCall

def vregs : VecCall → List Vreg
  | mov d s | broadcastReg d s => [d, s]
  | zero d | load d _ | intLoad d _ | broadcast d _ => [d]
  | store _ s | intStore _ s => [s]
  | broadcastD d s | round d s _ | rcp d s | rsqrt d s => d :: s.vregs
  | add d a b | sub d a b | mul d a b | fmadd213 d a b | fmadd231 d a b | cmpGt d a b | cmpGe d a b
  | packSsdw d a b | packUswb d a b | paddD d a b | pmullD d a b => d :: a :: b.vregs
  | blend d s mask => d :: s.vregs ++ [mask]

def masked : VecCall → VecCall
  | blend d s mask => .blend d s ⟨mask.num &&& 15⟩
  | c => c

end VecCall

namespace OpTable

variable {t : OpTable}

theorem covers_vector {c : VecCall} (hc : ∀ d, c ≠ .mov d d) :
    t.Covers (t.vector c) c.masked.vregs := by
  cases c with
  | mov d s =>
    refine covers_move ?_
    rintro rfl
    exact hc d rfl
  | zero d => exact covers_clear
  | load d m | intLoad d m | broadcast d m =>
    exact covers_unary (fun _ _ => rfl) (fun low => by cases low <;> rfl) fun _ => ⟨m, rfl⟩
  | broadcastReg d s | broadcastD d s | rcp d s | rsqrt d s =>
    exact covers_unary (fun low _ => by cases low <;> rfl) (fun low => by cases low <;> rfl)
      (by simp)
  | round d s mode => exact covers_unary (fun _ _ => rfl) (fun _ => rfl) (by simp)
  | store m s => exact covers_storeTo (.inl rfl) m
  | intStore m s => exact covers_storeTo (.inr rfl) m
  | add d a b | sub d a b | mul d a b | cmpGt d a b | cmpGe d a b | packSsdw d a b
  | packUswb d a b | paddD d a b | pmullD d a b => exact covers_binary (fun _ => rfl) fun _ => rfl
  | fmadd213 d a b | fmadd231 d a b => exact covers_fma (fun _ => rfl) fun _ => rfl
  | blend d s mask => exact covers_blend mask

/-- The instructions name the registers `vs`, all of them, and beyond them at most the scratch
register of a sequence. -/
def NamesExactly (t : OpTable) (nss : List (List Vreg)) (vs : List Vreg) : Prop :=
  (∀ v ∈ nss.flatten, v ∈ vs ∨ v = t.scratchVreg ∧ 2 ≤ nss.length) ∧ ∀ v ∈ vs, v ∈ nss.flatten

theorem call_names {c : VecCall} (hclean : ∀ e ∈ t.vector c, e.Clean) :
    ∃ nss, t.target.Names (t.code c) nss ∧ (∀ d, c = .mov d d → nss = []) ∧
      ((∀ d, c ≠ .mov d d) → t.NamesExactly nss c.masked.vregs ∧
        (t.NamesExactly nss c.vregs ↔ ∀ d s mask, c = .blend d s mask → mask.num ≤ 15)) := by
  by_cases hc : ∃ d, c = .mov d d
  · obtain ⟨d, rfl⟩ := hc
    refine ⟨[], ?_, fun _ _ => rfl, fun h => absurd rfl (h d)⟩
    simpa [code, vector, move] using Target.Names.nil
  · have hne : ∀ d, c ≠ .mov d d := fun d hd => hc ⟨d, hd⟩
    obtain ⟨nss, hnames, hlen, hsub, hall⟩ := covers_vector hne hclean
    have hexact : t.NamesExactly nss c.masked.vregs :=
      ⟨fun v hv => (hsub v hv).imp_right fun hs => ⟨hs.1, Nat.le_trans hs.2 hlen⟩, hall⟩
    refine ⟨nss, hnames, fun d hd => absurd hd (hne d), fun _ => ⟨hexact, ?_⟩⟩
    constructor
    · rintro ⟨-, hall⟩ d s mask rfl
      obtain ⟨ht, i, ns, hes, hregular, hns, -, hle⟩ := blend_instr hclean
      have hclean : ∀ e ∈ t.blend d s mask, e.Clean := hclean
      rw [hes] at hclean
      have hsingle : t.target.Names (t.code (.blend d s mask)) [ns] := by
        simpa [code, vector, hes] using names_x86 ht hregular (hclean _ List.mem_cons_self) hns
      have hsame : nss = [ns] := Option.some.inj (hnames.named.symm.trans hsingle.named)
      refine hle mask ?_
      have hmask := hall mask (by simp [VecCall.vregs])
      simpa [hsame] using hmask
    · intro hmask
      have hsame : c.masked = c := by
        cases c with
        | blend d s mask => simp [VecCall.masked, X86.and_15 (hmask d s mask rfl)]
        | _ => rfl
      exact hsame ▸ hexact

theorem calls_named {calls : List VecCall} (hclean : ∀ c ∈ calls, ∀ e ∈ t.vector c, e.Clean) :
    t.target.Names (calls.flatMap t.code)
      (calls.flatMap fun c => (t.target.named? (t.code c)).getD []) := by
  induction calls with
  | nil => exact .nil
  | cons c calls ih =>
    rw [List.forall_mem_cons] at hclean
    obtain ⟨nss, hnames, -⟩ := call_names hclean.1
    rw [List.flatMap_cons, List.flatMap_cons, hnames.named]
    exact hnames.append (ih hclean.2)

end OpTable

namespace Generator

/-- When no error is left after some calls, their code is read back one instruction after the other,
and what the instructions of a call name is what the call has room for: a copy of a register to
itself is of no instructions, and every other call names its own registers, with the mask of a blend
cut down to four bits, and perhaps the scratch register of a sequence. Those are the registers that
were asked for exactly where no mask is above 15. -/
theorem vectors_named (g : Generator) (calls : List VecCall)
    (hok : (calls.foldl vector g).buffer.error = none) :
    let t := g.table
    (calls.foldl vector g).buffer.bytes.toList =
        g.buffer.bytes.toList ++ calls.flatMap t.code ∧
      ∃ names : VecCall → List (List Vreg),
        t.target.named? (calls.flatMap t.code) = some (calls.flatMap names) ∧
        ∀ c ∈ calls, t.target.named? (t.code c) = some (names c) ∧
          (∀ d, c = .mov d d → names c = []) ∧
          ((∀ d, c ≠ .mov d d) → t.NamesExactly (names c) c.masked.vregs ∧
            (t.NamesExactly (names c) c.vregs ↔
              ∀ d s mask, c = .blend d s mask → mask.num ≤ 15)) := by
  intro t
  rw [buffer_vectors] at hok ⊢
  have hclean : ∀ c ∈ calls, ∀ e ∈ t.vector c, e.Clean := fun c hc e he =>
    (ok_foldl hok).2 e (List.mem_flatMap_of_mem hc he)
  refine ⟨?_, fun c => (t.target.named? (t.code c)).getD [], (OpTable.calls_named hclean).named,
    fun c hc => ?_⟩
  · rw [bytes_foldl_apply, blockBytes, List.flatMap_assoc]
    rfl
  · obtain ⟨nss, hnames, hcall⟩ := OpTable.call_names (hclean c hc)
    simpa only [hnames.named, Option.getD_some, true_and] using hcall

/-- A multiply-add in two steps, a blend and a load with AVX at 128 bits. -/
theorem sequence_named :
    let g : Generator :=
      { name := "k", origin := "k", table := ⟨.sysV, .v128, .ofList [.sse41, .avx]⟩ }
    let calls : List VecCall :=
      [.fmadd231 ⟨2⟩ ⟨0⟩ (.reg ⟨1⟩), .blend ⟨3⟩ (.reg ⟨4⟩) ⟨14⟩, .load ⟨5⟩ (.past .rax 16)]
    (calls.foldl vector g).buffer.error = none ∧
      ∃ names : VecCall → List (List Vreg), ∀ c ∈ calls,
        g.table.target.named? (g.table.code c) = some (names c) ∧
          g.table.NamesExactly (names c) c.vregs := by
  intro g calls
  have hok : (calls.foldl vector g).buffer.error = none := by decide
  obtain ⟨-, names, -, hall⟩ := vectors_named g calls hok
  refine ⟨hok, names, fun c hc => ?_⟩
  obtain ⟨hnamed, -, hexact⟩ := hall c hc
  simp only [calls, List.mem_cons, List.not_mem_nil, or_false] at hc
  rcases hc with rfl | rfl | rfl
  · exact ⟨hnamed, (hexact (by simp)).2.mpr (by simp)⟩
  · exact ⟨hnamed, (hexact (by simp)).2.mpr (by simp)⟩
  · exact ⟨hnamed, (hexact (by simp)).2.mpr (by simp)⟩

/-- Register 16 as a mask leaves no error, and the mask is register 0. -/
theorem mask_renamed :
    let g : Generator :=
      { name := "k", origin := "k", table := ⟨.sysV, .v128, .ofList [.sse41, .avx]⟩ }
    let c : VecCall := .blend ⟨0⟩ (.reg ⟨1⟩) ⟨16⟩
    (g.vector c).buffer.error = none ∧
      g.table.target.named? (g.table.code c) = some [[⟨0⟩, ⟨0⟩, ⟨1⟩, ⟨0⟩]] ∧
      ¬ g.table.NamesExactly [[⟨0⟩, ⟨0⟩, ⟨1⟩, ⟨0⟩]] c.vregs := by
  intro g c
  let i : X86.Instr := .vex (VecOp.blend.opcode .vex) false false 0 0 (.reg 1) (some 0)
  have hnames : g.table.target.Names (Emission.x86 i).bytes [[⟨0⟩, ⟨0⟩, ⟨1⟩, ⟨0⟩]] :=
    OpTable.names_x86 (i := i) rfl ⟨rfl, by decide⟩ (by decide) rfl
  have hcode : g.table.code c = (Emission.x86 i).bytes := by decide
  refine ⟨by decide, hcode ▸ hnames.named, fun h => ?_⟩
  exact absurd (h.2 ⟨16⟩ (by simp [c, VecCall.vregs])) (by decide)

end Generator

end JitGemm
