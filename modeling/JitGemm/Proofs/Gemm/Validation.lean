import JitGemm.Proofs.Gemm.Bounds

/-!
# What validation accepts

The legal calls in exact integers, from the arguments as a caller gives them. Validation counts in
words that stop at the largest one, reads its arguments one by one and answers with the first bad
one; it accepts the legal calls, and of the rest it tells the wrong from the unserved.
-/

namespace JitGemm

open Ieee (Datum)

-- ---------------------------------------------------------------------------
-- Legal calls
-- ---------------------------------------------------------------------------

/-- The shape of a call as a caller gives it. -/
structure ShapeValues where
  transA : UInt8
  transB : UInt8
  m : Int64
  n : Int64
  k : Int64
  lda : Int64
  ldb : Int64
  ldc : Int64
  deriving DecidableEq, Repr

/-- `N` and `T` in either case. -/
def IsFlag (byte : UInt8) : Prop := byte ∈ [78, 110, 84, 116]

instance (byte : UInt8) : Decidable (IsFlag byte) :=
  inferInstanceAs (Decidable (byte ∈ [78, 110, 84, 116]))

def transposes (byte : UInt8) : Bool := byte = 84 || byte = 116

/-- An operand as it is stored, in exact integers. -/
structure Storage where
  rows : Int
  cols : Int
  ld : Int
  deriving DecidableEq, Repr

namespace Storage

/-- Elements through the last stored one. -/
def length (s : Storage) : Int :=
  if s.rows = 0 ∨ s.cols = 0 then 0 else (s.cols - 1) * s.ld + s.rows

def HeldBy (s : Storage) (size : Nat) : Prop := max 1 s.rows ≤ s.ld ∧ s.length ≤ size

instance (s : Storage) (size : Nat) : Decidable (s.HeldBy size) :=
  inferInstanceAs (Decidable (_ ∧ _))

end Storage

namespace ShapeValues

variable (x : ShapeValues)

def shape : Except GemmError GemmShape :=
  GemmShape.ofFlags x.transA x.transB x.m.toInt x.n.toInt x.k.toInt x.lda.toInt x.ldb.toInt
    x.ldc.toInt

def storedA : Storage :=
  if transposes x.transA then ⟨x.k.toInt, x.m.toInt, x.lda.toInt⟩
  else ⟨x.m.toInt, x.k.toInt, x.lda.toInt⟩

def storedB : Storage :=
  if transposes x.transB then ⟨x.n.toInt, x.k.toInt, x.ldb.toInt⟩
  else ⟨x.k.toInt, x.n.toInt, x.ldb.toInt⟩

def storedC : Storage := ⟨x.m.toInt, x.n.toInt, x.ldc.toInt⟩

def offsetLength : OffsetMode → Int
  | .fixed => 1
  | .rowWise => x.n.toInt
  | .columnWise => x.m.toInt

/-- Flags and extents that stand for a shape. -/
structure Sound : Prop where
  transA : IsFlag x.transA
  transB : IsFlag x.transB
  m : 0 ≤ x.m.toInt
  n : 0 ≤ x.n.toInt
  k : 0 ≤ x.k.toInt
  lda : 0 ≤ x.lda.toInt
  ldb : 0 ≤ x.ldb.toInt
  ldc : 0 ≤ x.ldc.toInt

/-- A legal call with buffers of so many elements. -/
structure Legal (lenA lenB lenC : Nat) (lenBias : Option Nat) : Prop where
  sound : x.Sound
  a : x.storedA.HeldBy lenA
  b : x.storedB.HeldBy lenB
  c : x.storedC.HeldBy lenC
  bias : ∀ length, lenBias = some length → x.m.toInt ≤ length

/-- Whether there is an offset, with the values that its mode needs. -/
def HasOffset (offset : Option Offset) : Prop :=
  ∃ o, offset = some o ∧ x.offsetLength o.mode ≤ o.values.size

end ShapeValues

def Single.IsZero (x : Single) : Prop :=
  ∃ negative exponent, x.toDatum = .finite negative 0 exponent

section

variable {A B : Type}

/-- A shape is read, and then a request for it is looked at. -/
def validate (x : ShapeValues) (q : Request Single A B) (elemA elemB elemC : ElemType)
    (lenC : Nat) : Except GemmError Unit := do
  let shape ← x.shape
  ({ q with shape }.outline Single.arith elemA elemB elemC lenC).check

def validateQuantized (x : ShapeValues) (q : Request Single A B) (elemA elemB elemC : ElemType)
    (lenC : Nat) : Except GemmError Unit := do
  let shape ← x.shape
  ({ q with shape }.outline Single.arith elemA elemB elemC lenC).checkQuantized

end

/-- The three ways that validation ends. -/
structure Verdict (r : Except GemmError Unit) (legal served : Prop) : Prop where
  accepted : r = .ok () ↔ legal ∧ served
  unserved : (∃ cause, r = .error (.unimplemented cause)) ↔ legal ∧ ¬ served
  wrong : (∃ cause, r = .error (.invalidArguments cause)) ↔ ¬ legal

-- ---------------------------------------------------------------------------
-- Reading arguments
-- ---------------------------------------------------------------------------

/-- A legal argument is read as a value, any other one is told to be wrong. -/
structure Reads {β : Type} (r : Except GemmError β) (legal : Prop) (value : β) : Prop where
  ok : legal → r = .ok value
  wrong : ¬ legal → ∃ cause, r = .error (.invalidArguments cause)

namespace Reads

variable {β γ : Type} {r : Except GemmError β} {f : β → Except GemmError γ} {P Q S : Prop} {v : β}
  {w : γ}

theorem congr (h : Reads r P v) (hpq : P ↔ Q) : Reads r Q v :=
  ⟨fun hq => h.ok (hpq.mpr hq), fun hq => h.wrong (mt hpq.mp hq)⟩

theorem ite {p : Prop} [Decidable p] {cause : ArgumentFault} (h : p ↔ P) :
    Reads (if p then .ok v else .error (.invalidArguments cause)) P v := by
  by_cases hp : p
  · rw [if_pos hp]
    exact ⟨fun _ => rfl, fun hnot => absurd (h.mp hp) hnot⟩
  · rw [if_neg hp]
    exact ⟨fun hlegal => absurd (h.mpr hlegal) hp, fun _ => ⟨_, rfl⟩⟩

theorem value (v : β) : Reads (pure v) True v := ⟨fun _ => rfl, fun h => absurd trivial h⟩

theorem bind (h : Reads r P v) (h' : P → Reads (f v) Q w) : Reads (r >>= f) (P ∧ Q) w := by
  constructor
  · rintro ⟨hp, hq⟩
    rw [h.ok hp]
    exact (h' hp).ok hq
  · intro hnot
    by_cases hp : P
    · rw [h.ok hp]
      exact (h' hp).wrong fun hq => hnot ⟨hp, hq⟩
    · obtain ⟨cause, hcause⟩ := h.wrong hp
      exact ⟨cause, by rw [hcause]; rfl⟩

/-- A wrong argument ends everything, so what comes after it decides among the others only. -/
theorem verdict {f : β → Except GemmError Unit} (h : Reads r P v)
    (h' : P → Verdict (f v) Q S) : Verdict (r >>= f) (P ∧ Q) S := by
  by_cases hp : P
  · have hrest : Verdict (r >>= f) Q S := by
      rw [h.ok hp]
      exact h' hp
    exact ⟨by simpa [hp] using hrest.accepted, by simpa [hp] using hrest.unserved,
      by simpa [hp] using hrest.wrong⟩
  · obtain ⟨cause, hcause⟩ := h.wrong hp
    rw [hcause]
    constructor <;> simp [hp, Bind.bind, Except.bind]

end Reads

theorem Verdict.congr {r : Except GemmError Unit} {P Q S T : Prop} (h : Verdict r P S)
    (hlegal : P ↔ Q) (hserved : S ↔ T) : Verdict r Q T := by
  rwa [← propext hlegal, ← propext hserved]

theorem Transpose.reads_ofFlag (byte : UInt8) :
    Reads (ofFlag byte) (IsFlag byte) (if transposes byte then .trans else .noTrans) := by
  simp only [ofFlag, IsFlag, transposes, List.mem_cons, List.not_mem_nil, or_false]
  constructor
  · rintro (rfl | rfl | rfl | rfl) <;> rfl
  · intro h
    have hplain : ¬ (byte = 78 ∨ byte = 110) := fun hn => h (hn.imp_right .inl)
    have htrans : ¬ (byte = 84 ∨ byte = 116) := fun ht => h (.inr (.inr ht))
    rw [if_neg hplain, if_neg htrans]
    exact ⟨_, rfl⟩

theorem GemmShape.reads_extent (argument : String) (value : Int) :
    Reads (extent argument value) (0 ≤ value) value.toNat := by
  simp only [extent, ← Int.not_le, ite_not]
  exact .ite .rfl

def ShapeValues.read (x : ShapeValues) : GemmShape where
  transA := if transposes x.transA then .trans else .noTrans
  transB := if transposes x.transB then .trans else .noTrans
  m := x.m.toInt.toNat
  n := x.n.toInt.toNat
  k := x.k.toInt.toNat
  lda := x.lda.toInt.toNat
  ldb := x.ldb.toInt.toNat
  ldc := x.ldc.toInt.toNat

theorem ShapeValues.reads_shape (x : ShapeValues) : Reads x.shape x.Sound x.read := by
  have hshape : Reads x.shape (IsFlag x.transA ∧ IsFlag x.transB ∧ 0 ≤ x.m.toInt ∧ 0 ≤ x.n.toInt ∧
      0 ≤ x.k.toInt ∧ 0 ≤ x.lda.toInt ∧ 0 ≤ x.ldb.toInt ∧ 0 ≤ x.ldc.toInt ∧ True) x.read := by
    refine (Transpose.reads_ofFlag _).bind fun _ => (Transpose.reads_ofFlag _).bind fun _ => ?_
    refine (GemmShape.reads_extent _ _).bind fun _ => (GemmShape.reads_extent _ _).bind fun _ => ?_
    refine (GemmShape.reads_extent _ _).bind fun _ => (GemmShape.reads_extent _ _).bind fun _ => ?_
    refine (GemmShape.reads_extent _ _).bind fun _ => (GemmShape.reads_extent _ _).bind fun _ => ?_
    exact .value _
  refine hshape.congr ⟨?_, ?_⟩
  · rintro ⟨ha, hb, hm, hn, hk, hlda, hldb, hldc, -⟩
    exact ⟨ha, hb, hm, hn, hk, hlda, hldb, hldc⟩
  · rintro ⟨ha, hb, hm, hn, hk, hlda, hldb, hldc⟩
    exact ⟨ha, hb, hm, hn, hk, hlda, hldb, hldc, trivial⟩

-- ---------------------------------------------------------------------------
-- Operands
-- ---------------------------------------------------------------------------

structure Matrix.Stands (x : Matrix) (s : Storage) : Prop where
  rows : (x.rowsStored : Int) = s.rows
  cols : (x.colsStored : Int) = s.cols
  ld : (x.ld : Int) = s.ld

namespace Outline

variable {x : Matrix} {s : Storage}

theorem reads_checkLd (h : x.Stands s) (argument : String) :
    Reads (checkLd argument x) (max 1 s.rows ≤ s.ld) () := by
  refine .ite ?_
  rw [Matrix.ldValid, decide_eq_true_eq, ← h.rows, ← h.ld]
  omega

/-- The length that stops at the largest word is as good as the exact one, because no buffer is as
long as that. -/
theorem requiredLen_le_iff (h : x.Stands s) {size : Nat} (hsize : size ≤ Size.objectLimit) :
    x.requiredLen ≤ size ↔ s.length ≤ size := by
  have hempty : (x.rows = 0 ∨ x.cols = 0) ↔ (s.rows = 0 ∨ s.cols = 0) := by
    rw [← h.rows, ← h.cols, Matrix.rowsStored, Matrix.colsStored]
    split <;> omega
  rw [Matrix.requiredLen, Storage.length]
  by_cases h0 : s.rows = 0 ∨ s.cols = 0
  · rw [if_pos (hempty.mpr h0), if_pos h0]
    omega
  · rw [if_neg (mt hempty.mp h0), if_neg h0]
    have hexact : (((x.colsStored - 1) * x.ld + x.rowsStored : Nat) : Int) =
        (s.cols - 1) * s.ld + s.rows := by
      have hcols : 1 ≤ x.colsStored := by
        have := h.cols
        omega
      rw [← h.rows, ← h.cols, ← h.ld]
      push_cast [hcols]
      rfl
    rw [← hexact]
    simp only [Size.cap, Size.limit, Size.modulus, Size.objectLimit] at hsize ⊢
    omega

theorem reads_checkLen (h : x.Stands s) (operand : String) {size : Nat}
    (hsize : size ≤ Size.objectLimit) :
    Reads (checkLen operand x size) (s.length ≤ size) () :=
  .ite (requiredLen_le_iff h hsize)

/-- A bias that is too short is wrong, and a beta with it is not served. -/
theorem verdict_checkBias (o : Outline) :
    Verdict o.checkBias (∀ length, o.lenBias = some length → o.shape.m ≤ length)
      (o.lenBias.isSome → o.betaZero) := by
  rw [checkBias]
  cases hbias : o.lenBias with
  | none => constructor <;> simp
  | some length =>
    by_cases hshort : length < o.shape.m
    · have hnot : ¬ o.shape.m ≤ length := Nat.not_le.mpr hshort
      constructor <;> simp [hshort, hnot]
    · have hle : o.shape.m ≤ length := Nat.not_lt.mp hshort
      cases hbeta : o.betaZero <;> constructor <;> simp [hshort, hle]

theorem reads_checkOffset (o : Outline) :
    Reads o.checkOffset (∃ mode length, o.offset = some (mode, length) ∧
      mode.requiredLen o.shape.m o.shape.n ≤ length) () := by
  rw [checkOffset]
  cases o.offset with
  | none =>
    refine ⟨?_, fun _ => ⟨_, rfl⟩⟩
    rintro ⟨_, _, ⟨⟩, _⟩
  | some given =>
    obtain ⟨mode, length⟩ := given
    have hlength : mode.requiredLen o.shape.m o.shape.n ≤ length ↔
        ∃ mode' length', some (mode, length) = some (mode', length') ∧
          mode'.requiredLen o.shape.m o.shape.n ≤ length' := by
      constructor
      · exact fun hle => ⟨mode, length, rfl, hle⟩
      · rintro ⟨_, _, ⟨⟩, hle⟩
        exact hle
    simp only [← Nat.not_le, ite_not]
    exact .ite hlength

theorem verdict_check {o : Outline} {a b c : Storage} (ha : (o.shape.a o.elemA).Stands a)
    (hb : (o.shape.b o.elemB).Stands b) (hc : (o.shape.c o.elemC).Stands c)
    (hlenA : o.lenA ≤ Size.objectLimit) (hlenB : o.lenB ≤ Size.objectLimit)
    (hlenC : o.lenC ≤ Size.objectLimit) :
    Verdict o.check (a.HeldBy o.lenA ∧ b.HeldBy o.lenB ∧ c.HeldBy o.lenC ∧
      ∀ length, o.lenBias = some length → o.shape.m ≤ length)
      (o.lenBias.isSome → o.betaZero) := by
  have hsteps : Verdict o.check (max 1 a.rows ≤ a.ld ∧ max 1 b.rows ≤ b.ld ∧ max 1 c.rows ≤ c.ld ∧
      a.length ≤ o.lenA ∧ b.length ≤ o.lenB ∧ c.length ≤ o.lenC ∧
      ∀ length, o.lenBias = some length → o.shape.m ≤ length)
      (o.lenBias.isSome → o.betaZero) := by
    refine (reads_checkLd ha _).verdict fun _ => (reads_checkLd hb _).verdict fun _ => ?_
    refine (reads_checkLd hc _).verdict fun _ => (reads_checkLen ha _ hlenA).verdict fun _ => ?_
    refine (reads_checkLen hb _ hlenB).verdict fun _ => (reads_checkLen hc _ hlenC).verdict ?_
    exact fun _ => o.verdict_checkBias
  refine hsteps.congr ⟨?_, ?_⟩ .rfl
  · rintro ⟨hlda, hldb, hldc, hla, hlb, hlc, hbias⟩
    exact ⟨⟨hlda, hla⟩, ⟨hldb, hlb⟩, ⟨hldc, hlc⟩, hbias⟩
  · rintro ⟨⟨hlda, hla⟩, ⟨hldb, hlb⟩, ⟨hldc, hlc⟩, hbias⟩
    exact ⟨hlda, hldb, hldc, hla, hlb, hlc, hbias⟩

end Outline

-- ---------------------------------------------------------------------------
-- All of a call
-- ---------------------------------------------------------------------------

theorem Single.isZero_iff (x : Single) : x.isZero = true ↔ x.IsZero := by
  have hzero : x.isZero = true ↔ x.bits.toNat % 2 ^ 31 = 0 := by
    rw [isZero, beq_iff_eq, ← UInt32.toNat_inj, toNat_magnitude]
    rfl
  have hdatum : x.IsZero ↔ x.bits.toNat % 2 ^ 23 = 0 ∧ x.bits.toNat / 2 ^ 23 % 2 ^ 8 = 0 := by
    simp only [IsZero, toDatum, Datum.ofBits, Ieee.Format.binary32, Nat.shiftRight_eq_div_pow,
      Nat.one_shiftLeft, Nat.reduceSub]
    split
    · split <;> simp <;> omega
    · split
      · simp [*]
      · simp [*]
  rw [hzero, hdatum]
  omega

/-- An operand of so many rows and columns, and how it is stored. -/
theorem Matrix.stands_of_nonneg (trans : Bool) {rows cols ld : Int} (hrows : 0 ≤ rows)
    (hcols : 0 ≤ cols) (hld : 0 ≤ ld) (elem : ElemType) :
    Stands ⟨if trans then .trans else .noTrans, rows.toNat, cols.toNat, ld.toNat, elem⟩
      (if trans then ⟨cols, rows, ld⟩ else ⟨rows, cols, ld⟩) := by
  cases trans <;> constructor <;> simp [rowsStored, colsStored, Transpose.isTrans] <;> omega

section

variable {A B : Type} (x : ShapeValues) (q : Request Single A B) (elemA elemB elemC : ElemType)
  (lenC : Nat)

/-- What validation sees of a request for a sound shape. -/
def ShapeValues.outline : Outline :=
  Request.outline { q with shape := x.read } Single.arith elemA elemB elemC lenC

variable {x q elemA elemB elemC lenC}

theorem ShapeValues.Sound.verdict_check (hx : x.Sound) (hlenA : q.a.size ≤ Size.objectLimit)
    (hlenB : q.b.size ≤ Size.objectLimit) (hlenC : lenC ≤ Size.objectLimit) :
    Verdict (x.outline q elemA elemB elemC lenC).check
      (x.storedA.HeldBy q.a.size ∧ x.storedB.HeldBy q.b.size ∧ x.storedC.HeldBy lenC ∧
        ∀ length, q.bias.map Array.size = some length → x.m.toInt ≤ length)
      (q.bias.isSome → q.beta.IsZero) := by
  have hcheck := Outline.verdict_check (o := x.outline q elemA elemB elemC lenC)
    (Matrix.stands_of_nonneg (transposes x.transA) hx.m hx.k hx.lda elemA)
    (Matrix.stands_of_nonneg (transposes x.transB) hx.k hx.n hx.ldb elemB)
    (Matrix.stands_of_nonneg false hx.m hx.n hx.ldc elemC) hlenA hlenB hlenC
  have hm : ∀ length : Nat, x.read.m ≤ length ↔ x.m.toInt ≤ length := fun length => Int.toNat_le
  have hbias : (q.bias.map Array.size).isSome = q.bias.isSome := Option.isSome_map
  refine hcheck.congr ?_ ?_
  · exact and_congr .rfl (and_congr .rfl (and_congr .rfl
      (forall_congr' fun length => imp_congr .rfl (hm length))))
  · exact imp_congr (by rw [← hbias]; rfl) q.beta.isZero_iff

theorem ShapeValues.Sound.reads_checkOffset (hx : x.Sound) :
    Reads (x.outline q elemA elemB elemC lenC).checkOffset (x.HasOffset q.offset) () := by
  have hlength : ∀ (mode : OffsetMode) (length : Nat),
      mode.requiredLen x.read.m x.read.n ≤ length ↔ x.offsetLength mode ≤ length := by
    intro mode length
    have hm := Int.toNat_of_nonneg hx.m
    have hn := Int.toNat_of_nonneg hx.n
    cases mode <;> simp only [OffsetMode.requiredLen, offsetLength, read] <;> omega
  refine (Outline.reads_checkOffset _).congr ⟨?_, ?_⟩
  · rintro ⟨mode, length, hsome, hle⟩
    obtain ⟨o, ho, hmode⟩ := Option.map_eq_some_iff.mp hsome
    cases hmode
    exact ⟨o, ho, (hlength _ _).mp hle⟩
  · rintro ⟨o, ho, hle⟩
    refine ⟨o.mode, o.values.size, ?_, (hlength _ _).mpr hle⟩
    simp [outline, Request.outline, ho]

end

theorem ShapeValues.legal_iff (x : ShapeValues) {lenA lenB lenC : Nat} {lenBias : Option Nat} :
    x.Legal lenA lenB lenC lenBias ↔
      x.Sound ∧ x.storedA.HeldBy lenA ∧ x.storedB.HeldBy lenB ∧ x.storedC.HeldBy lenC ∧
        ∀ length, lenBias = some length → x.m.toInt ≤ length :=
  ⟨fun h => ⟨h.sound, h.a, h.b, h.c, h.bias⟩,
    fun ⟨hs, ha, hb, hc, hbias⟩ => ⟨hs, ha, hb, hc, hbias⟩⟩

/-- Validation accepts exactly the legal calls whose beta is zero wherever there is a bias. Of the
other ones the legal ones are unserved, and all others are wrong, whatever else there is to say
about them. A quantized call is legal only with an offset that has all values that its mode
needs. -/
theorem validate_exact {A B : Type} (x : ShapeValues) (q : Request Single A B) (lenC : Nat)
    (hlenA : q.a.size ≤ Size.objectLimit) (hlenB : q.b.size ≤ Size.objectLimit)
    (hlenC : lenC ≤ Size.objectLimit) (elemA elemB elemC : ElemType) :
    Verdict (validate x q elemA elemB elemC lenC)
        (x.Legal q.a.size q.b.size lenC (q.bias.map Array.size))
        (q.bias.isSome → q.beta.IsZero) ∧
      Verdict (validateQuantized x q elemA elemB elemC lenC)
        (x.Legal q.a.size q.b.size lenC (q.bias.map Array.size) ∧ x.HasOffset q.offset)
        (q.bias.isSome → q.beta.IsZero) := by
  rw [x.legal_iff]
  constructor
  · exact x.reads_shape.verdict fun hx => hx.verdict_check hlenA hlenB hlenC
  · have hsteps : Verdict (validateQuantized x q elemA elemB elemC lenC) _ _ :=
      x.reads_shape.verdict fun hx => hx.reads_checkOffset.verdict fun _ =>
        hx.verdict_check hlenA hlenB hlenC
    refine hsteps.congr ⟨?_, ?_⟩ .rfl
    · rintro ⟨hs, ho, hrest⟩
      exact ⟨⟨hs, hrest⟩, ho⟩
    · rintro ⟨⟨hs, hrest⟩, ho⟩
      exact ⟨hs, ho, hrest⟩

/-- A column of three from a transposed A, with a bias and a negative zero as beta. -/
def columnValues : ShapeValues where
  transA := 84
  transB := 110
  m := 2
  n := 1
  k := 3
  lda := 3
  ldb := 3
  ldc := 2

def columnRequest : Request Single Single Single where
  shape := .tight .trans .noTrans 2 1 3
  a := Array.replicate 6 .one
  b := Array.replicate 3 .one
  alpha := .one
  beta := ⟨0x80000000⟩
  bias := some #[.one, .one]

theorem columnValues_legal : columnValues.Legal 6 3 2 (some 2) where
  sound := by constructor <;> decide
  a := by decide
  b := by decide
  c := by decide
  bias := by
    rintro length ⟨⟩
    decide

theorem columnRequest_validates :
    validate columnValues columnRequest .f32 .f32 .f32 2 = .ok () ∧
      ∃ cause, validateQuantized columnValues columnRequest .f32 .f32 .f32 2 =
        .error (.invalidArguments cause) := by
  have hexact := validate_exact columnValues columnRequest 2 (by decide) (by decide) (by decide)
    .f32 .f32 .f32
  refine ⟨hexact.1.accepted.mpr ⟨columnValues_legal, fun _ => ?_⟩, hexact.2.wrong.mpr ?_⟩
  · exact (Single.isZero_iff _).mp rfl
  · rintro ⟨-, o, ho, -⟩
    cases ho

end JitGemm
