import JitGemm.Proofs.Gemm.AcceptedRuns

/-!
# Only the logical operands count

Two requests for the same product may store their matrices in ways of their own: transposed or not,
with other leading dimensions, in longer buffers, with anything in between. Every route gives both
the same elements of C, and with a beta of zero whatever C held before.
-/

namespace JitGemm

-- ---------------------------------------------------------------------------
-- The same product
-- ---------------------------------------------------------------------------

namespace Request

variable {α A B : Type}

/-- Elements of A and B after transposition, where storage has them. -/
def elementA? (q : Request α A B) (i p : Nat) : Option A :=
  q.a[if q.shape.transA.isTrans then p + i * q.shape.lda else i + p * q.shape.lda]?

def elementB? (q : Request α A B) (p j : Nat) : Option B :=
  q.b[if q.shape.transB.isTrans then j + p * q.shape.ldb else p + j * q.shape.ldb]?

/-- Two requests that say the same of a product, however they store it. -/
structure SameProduct (q q' : Request α A B) : Prop where
  m : q'.shape.m = q.shape.m
  n : q'.shape.n = q.shape.n
  k : q'.shape.k = q.shape.k
  a : ∀ i < q.shape.m, ∀ p < q.shape.k, q'.elementA? i p = q.elementA? i p
  b : ∀ p < q.shape.k, ∀ j < q.shape.n, q'.elementB? p j = q.elementB? p j
  alpha : q'.alpha = q.alpha
  beta : q'.beta = q.beta
  bias : ∀ i < q.shape.m, q'.bias.map (·[i]?) = q.bias.map (·[i]?)
  zeroPoints : q'.zeroPoints = q.zeroPoints
  offset : ∀ i < q.shape.m, ∀ j < q.shape.n, Offset.at q'.offset i j = Offset.at q.offset i j

end Request

/-- Whether two C hold the same block, each by its own leading dimension. -/
def GemmShape.SameBlock {γ : Type} (s s' : GemmShape) (c c' : Array γ) : Prop :=
  ∀ i < s.m, ∀ j < s.n, ∃ v, s.element? c i j = some v ∧ s'.element? c' i j = some v

/-- Both runs end well, and in C with the same block. -/
def Run.AgreeOn {γ : Type} (s s' : GemmShape) (c c' : Array γ) (run run' : Run γ Unit) : Prop :=
  ∃ d d', run.run c = .ok () d ∧ run'.run c' = .ok () d' ∧ s.SameBlock s' d d'

/-- Two accepted calls for the same product. What C held before is the same where it counts. -/
structure Request.Interchangeable {α A B γ : Type} (ar : Arith α) (q q' : Request α A B)
    (elemA elemB elemC : ElemType) (check : Outline → Except GemmError Unit) (c c' : Array γ) :
    Prop where
  first : (q.outline ar elemA elemB elemC c.size).Admitted check
  second : (q'.outline ar elemA elemB elemC c'.size).Admitted check
  same : q.SameProduct q'
  old : ar.isZero q.beta = false → q.shape.SameBlock q'.shape c c'

/-- The old value plays no part in a quantized element where beta is zero. -/
def Arith.DiscardsOld {α : Type} (ar : Arith α) : Prop :=
  ∀ sum alpha beta old old' offset, ar.isZero beta = true →
    ar.quantize sum alpha beta old offset = ar.quantize sum alpha beta old' offset

theorem Single.arith_discardsOld : Single.arith.DiscardsOld := by
  intro sum alpha beta old old' offset (hzero : beta.isZero = true)
  simp only [arith, quantize, hzero, if_true]

-- ---------------------------------------------------------------------------
-- Operands
-- ---------------------------------------------------------------------------

section

variable {V : Type}

/-- Two pairs of operands with the same row of A and the same column of B. -/
def SameFactors (zero : V) (a b a' b' : Operand V) (k i j : Nat) : Prop :=
  ∀ p < k, a'.value zero i p = a.value zero i p ∧ b'.value zero p j = b.value zero p j

theorem SameFactors.foldl_eq {zero : V} {a b a' b' : Operand V} {k i j : Nat}
    (h : SameFactors zero a b a' b' k i j) (f : V → V → V → V) :
    (List.range k).foldl (fun acc p => f acc (a'.value zero i p) (b'.value zero p j)) zero =
      (List.range k).foldl (fun acc p => f acc (a.value zero i p) (b.value zero p j)) zero := by
  refine List.foldl_ext _ _ _ fun acc p hp => ?_
  obtain ⟨ha, hb⟩ := h p (List.mem_range.mp hp)
  rw [ha, hb]

end

namespace Request

variable {α A B V : Type} {q q' : Request α A B} {i j p : Nat}

theorem lookup?_a {elem : ElemType} (h : (q.shape.a elem).Covered q.a.size) (convert : A → V)
    (hi : i < q.shape.m) (hp : p < q.shape.k) :
    (Operand.of (q.shape.a elem) q.a convert).lookup? i p = (q.elementA? i p).map convert := by
  rw [Operand.lookup?, Operand.of, h.index_eq hi hp]
  rfl

theorem lookup?_b {elem : ElemType} (h : (q.shape.b elem).Covered q.b.size) (convert : B → V)
    (hp : p < q.shape.k) (hj : j < q.shape.n) :
    (Operand.of (q.shape.b elem) q.b convert).lookup? p j = (q.elementB? p j).map convert := by
  rw [Operand.lookup?, Operand.of, h.index_eq hp hj]
  rfl

theorem SameProduct.degenerate (h : q.SameProduct q') :
    q'.shape.degenerate = q.shape.degenerate := by
  rw [GemmShape.degenerate, GemmShape.degenerate, h.m, h.n, h.k]

/-- Packing is by extents alone. -/
theorem SameProduct.packable (h : q.SameProduct q') {rows : Nat} (hpack : q.shape.Packable rows) :
    q'.shape.Packable rows where
  a := h.m ▸ h.k ▸ hpack.a
  b := h.k ▸ hpack.b
  tile := hpack.tile

theorem SameProduct.factors (h : q.SameProduct q') {elemA elemB : ElemType}
    (ha : (q.shape.a elemA).Covered q.a.size) (hb : (q.shape.b elemB).Covered q.b.size)
    (ha' : (q'.shape.a elemA).Covered q'.a.size) (hb' : (q'.shape.b elemB).Covered q'.b.size)
    (zero : V) (convertA : A → V) (convertB : B → V) (hi : i < q.shape.m) (hj : j < q.shape.n) :
    SameFactors zero (.of (q.shape.a elemA) q.a convertA) (.of (q.shape.b elemB) q.b convertB)
      (.of (q'.shape.a elemA) q'.a convertA) (.of (q'.shape.b elemB) q'.b convertB)
      q.shape.k i j := by
  intro p hp
  have hp' : p < q'.shape.k := h.k ▸ hp
  constructor
  · rw [Operand.value, Operand.value, lookup?_a ha convertA hi hp,
      lookup?_a ha' convertA (h.m ▸ hi) hp', h.a i hi p hp]
  · rw [Operand.value, Operand.value, lookup?_b hb convertB hp hj,
      lookup?_b hb' convertB hp' (h.n ▸ hj), h.b p hp j hj]

end Request

-- ---------------------------------------------------------------------------
-- Values
-- ---------------------------------------------------------------------------

section

variable {α : Type} (ar : Arith α) {a b a' b' : Operand α} {k i j : Nat} {alpha beta old old' : α}
  {bias bias' : Option (Array α)}

theorem bias_eq (h : bias'.map (·[i]?) = bias.map (·[i]?)) (zero : α) :
    bias'.map (fun xs => xs.getD i zero) = bias.map fun xs => xs.getD i zero := by
  have hvalue := congrArg (Option.map fun x : Option α => x.getD zero) h
  simpa [Function.comp_def, Array.getD_eq_getD_getElem?] using hvalue

theorem Reference.floatValue_congr (h : SameFactors ar.zero a b a' b' k i j)
    (hbias : bias'.map (·[i]?) = bias.map (·[i]?)) (hold : ar.isZero beta = false → old' = old) :
    floatValue ar a' b' k alpha beta bias' i j old' =
      floatValue ar a b k alpha beta bias i j old := by
  have hdot : dotValue ar a' b' k i j = dotValue ar a b k i j :=
    h.foldl_eq fun acc x y => ar.add acc (ar.mul x y)
  have hfinish (kept : α) (bias : Option (Array α)) :
      (bias.elim kept fun xs => ar.add kept (xs.getD i ar.zero)) =
        (bias.map fun xs => xs.getD i ar.zero).elim kept (ar.add kept) := by
    cases bias <;> rfl
  simp only [floatValue, hfinish, hdot, bias_eq hbias]
  cases hzero : ar.isZero beta with
  | true => rfl
  | false => rw [hold hzero]

theorem Blocked.floatValue_congr (h : SameFactors ar.zero a b a' b' k i j)
    (hbias : bias'.map (·[i]?) = bias.map (·[i]?)) (hold : ar.isZero beta = false → old' = old)
    (fused : Bool) :
    floatValue ar fused a' b' k alpha beta bias' i j old' =
      floatValue ar fused a b k alpha beta bias i j old := by
  have hsum : sumValue ar fused a' b' k i j = sumValue ar fused a b k i j :=
    h.foldl_eq fun acc x y => Tile.mulAdd ar fused x y acc
  simp only [floatValue, hsum, bias_eq hbias]
  cases hzero : ar.isZero beta with
  | true => exact floatFinish_betaZero ar _ _ _ _ _ _ _
  | false => rw [hold hzero]

theorem Reference.intValue_congr {a b a' b' : Operand Int32} {offset offset' : Option Offset}
    {old old' : Int32} (h : SameFactors 0 a b a' b' k i j)
    (hoffset : Offset.at offset' i j = Offset.at offset i j) (hdiscards : ar.DiscardsOld)
    (hold : ar.isZero beta = false → old' = old) :
    intValue ar a' b' k alpha beta offset' i j old' =
      intValue ar a b k alpha beta offset i j old := by
  have hdot : intDotValue a' b' k i j = intDotValue a b k i j :=
    h.foldl_eq fun acc x y => acc + x * y
  simp only [intValue, hdot, hoffset]
  cases hzero : ar.isZero beta with
  | true => exact hdiscards _ _ _ _ _ _ hzero
  | false => rw [hold hzero]

end

-- ---------------------------------------------------------------------------
-- Runs
-- ---------------------------------------------------------------------------

theorem GemmShape.SameBlock.old_eq {γ : Type} {s s' : GemmShape} {c c' : Array γ}
    (h : s.SameBlock s' c c') {i j : Nat} (hi : i < s.m) (hj : j < s.n) {old old' : γ}
    (hc : s.element? c i j = some old) (hc' : s'.element? c' i j = some old') : old' = old := by
  obtain ⟨v, hv, hv'⟩ := h i hi j hj
  exact Option.some.inj (hc'.symm.trans (hv'.trans (hv.symm.trans hc)))

/-- Runs that overwrite their blocks agree if they do so element by element. -/
theorem Run.agreeOn_of_overwrite {γ : Type} {s s' : GemmShape} {c c' : Array γ}
    {run run' : Run γ Unit} {f f' : Nat → Nat → γ → γ} {elem : ElemType}
    (hs : (s.c elem).Covered c.size) (hs' : (s'.c elem).Covered c'.size) (hm : s'.m = s.m)
    (hn : s'.n = s.n)
    (hrun : run.run c = .ok () (s.overwrite f (fun _ _ => true) c))
    (hrun' : run'.run c' = .ok () (s'.overwrite f' (fun _ _ => true) c'))
    (hvalue : ∀ i < s.m, ∀ j < s.n, ∀ old old', s.element? c i j = some old →
      s'.element? c' i j = some old' → f' i j old' = f i j old) :
    AgreeOn s s' c c' run run' := by
  refine ⟨_, _, hrun, hrun', fun i hi j hj => ?_⟩
  have hi' : i < s'.m := hm ▸ hi
  have hj' : j < s'.n := hn ▸ hj
  have hc : s.element? c i j = some _ := Array.getElem?_eq_getElem (hs.exactIndex_lt hi hj)
  have hc' : s'.element? c' i j = some _ := Array.getElem?_eq_getElem (hs'.exactIndex_lt hi' hj')
  rw [GemmShape.element?_overwrite hs.rows hi hj, GemmShape.element?_overwrite hs'.rows hi' hj',
    hc, hc']
  exact ⟨_, rfl, congrArg some (hvalue i hi j hj _ _ hc hc')⟩

-- ---------------------------------------------------------------------------
-- Routes
-- ---------------------------------------------------------------------------

section

variable {α A B : Type} {ar : Arith α}

/-- Real products, on the reference kernel and on tiles of any height that can be packed for. -/
theorem Request.Interchangeable.float_agree {q q' : Request α A A} {elem : ElemType}
    {c c' : Array α} (h : q.Interchangeable ar q' elem elem .f32 Outline.check c c')
    (widen : A → α) (team team' : Work.Team) :
    Run.AgreeOn q.shape q'.shape c c'
        (Reference.float ar team q (q.floatA elem widen) (q.floatB elem widen))
        (Reference.float ar team' q' (q'.floatA elem widen) (q'.floatB elem widen)) ∧
      (q.shape.degenerate = false → ∀ fused rows rows', 0 < rows → 0 < rows' →
        q.shape.Packable rows → q.shape.Packable rows' →
        Run.AgreeOn q.shape q'.shape c c'
          (Blocked.float ar team fused rows q (q.floatA elem widen) (q.floatB elem widen))
          (Blocked.float ar team' fused rows' q' (q'.floatA elem widen)
            (q'.floatB elem widen))) := by
  obtain ⟨hq, hq', hsame, hold⟩ := h
  have haccepted := Outline.accepted_of_check hq.fits hq.accepted
  have haccepted' := Outline.accepted_of_check hq'.fits hq'.accepted
  have hfactors (i : Nat) (hi : i < q.shape.m) (j : Nat) (hj : j < q.shape.n) :=
    hsame.factors haccepted.a haccepted.b haccepted'.a haccepted'.b ar.zero widen widen hi hj
  constructor
  · refine Run.agreeOn_of_overwrite haccepted.c haccepted'.c hsame.m hsame.n
      (Request.run_reference ar hq.fits hq.accepted widen team)
      (Request.run_reference ar hq'.fits hq'.accepted widen team')
      fun i hi j hj old old' hc hc' => ?_
    rw [hsame.k, hsame.alpha, hsame.beta]
    exact Reference.floatValue_congr ar (hfactors i hi j hj) (hsame.bias i hi)
      fun hz => (hold hz).old_eq hi hj hc hc'
  · intro hwork fused rows rows' hrows hrows' hpack hpack'
    have hwork' : q'.shape.degenerate = false := hsame.degenerate.trans hwork
    refine Run.agreeOn_of_overwrite haccepted.c haccepted'.c hsame.m hsame.n
      (Request.run_tiles ar hq hwork widen hrows hpack fused team)
      (Request.run_tiles ar hq' hwork' widen hrows' (hsame.packable hpack') fused team')
      fun i hi j hj old old' hc hc' => ?_
    rw [hsame.k, hsame.alpha, hsame.beta]
    exact Blocked.floatValue_congr ar (hfactors i hi j hj) (hsame.bias i hi)
      (fun hz => (hold hz).old_eq hi hj hc hc') fused

/-- Quantized products, on the reference kernel and on tiles of any height that can be packed for,
with any shift. -/
theorem Request.Interchangeable.int_agree {q q' : Request α Int8 B} {kind : IntKind B}
    {c c' : Array Int32}
    (h : q.Interchangeable ar q' .s8 kind.elem .s32 Outline.checkQuantized c c')
    (hdiscards : ar.DiscardsOld) (team team' : Work.Team) :
    Run.AgreeOn q.shape q'.shape c c' (Reference.int ar team q q.intA (q.intB kind))
        (Reference.int ar team' q' q'.intA (q'.intB kind)) ∧
      (q.shape.degenerate = false → ∀ rows rows' shift shift', 0 < rows → 0 < rows' →
        q.shape.Packable rows → q.shape.Packable rows' →
        Run.AgreeOn q.shape q'.shape c c' (Blocked.int ar team rows shift q q.intA (q.intB kind))
          (Blocked.int ar team' rows' shift' q' q'.intA (q'.intB kind))) := by
  obtain ⟨hq, hq', hsame, hold⟩ := h
  have haccepted := (Outline.accepted_of_checkQuantized hq.fits hq.accepted).1
  have haccepted' := (Outline.accepted_of_checkQuantized hq'.fits hq'.accepted).1
  have hvalue : ∀ i < q.shape.m, ∀ j < q.shape.n, ∀ old old', q.shape.element? c i j = some old →
      q'.shape.element? c' i j = some old' →
      Reference.intValue ar q'.intA (q'.intB kind) q'.shape.k q'.alpha q'.beta q'.offset i j old' =
        Reference.intValue ar q.intA (q.intB kind) q.shape.k q.alpha q.beta q.offset i j old := by
    intro i hi j hj old old' hc hc'
    rw [hsame.k, hsame.alpha, hsame.beta, Request.intA, Request.intB, hsame.zeroPoints]
    exact Reference.intValue_congr ar
      (hsame.factors haccepted.a haccepted.b haccepted'.a haccepted'.b 0 _ _ hi hj)
      (hsame.offset i hi j hj) hdiscards fun hz => (hold hz).old_eq hi hj hc hc'
  constructor
  · exact Run.agreeOn_of_overwrite haccepted.c haccepted'.c hsame.m hsame.n
      (Request.run_intReference ar kind hq.fits hq.accepted team)
      (Request.run_intReference ar kind hq'.fits hq'.accepted team') hvalue
  · intro hwork rows rows' shift shift' hrows hrows' hpack hpack'
    have hwork' : q'.shape.degenerate = false := hsame.degenerate.trans hwork
    exact Run.agreeOn_of_overwrite haccepted.c haccepted'.c hsame.m hsame.n
      (Request.run_intTiles ar kind hq hwork hrows hpack shift team)
      (Request.run_intTiles ar kind hq' hwork' hrows' (hsame.packable hpack') shift' team') hvalue

end

end JitGemm
