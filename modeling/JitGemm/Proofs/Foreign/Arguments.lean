import JitGemm.Foreign.Argument
import JitGemm.Proofs.Gemm.Validation
import JitGemm.Tile.Key

/-!
# Reading of foreign arguments

What the arguments of a call say, apart from the order in which they are read: a pointer is null
where it may not be, a value stands for no shape or mode, or the arguments stand for a call. The
readers find out which.
-/

namespace JitGemm.Foreign

/-- What the arguments of a call say. Arguments with a null where there must be none may be
malformed too. -/
structure Meaning (α A B γ : Type) where
  /-- Some pointer is null that may not be. -/
  missing : Prop
  /-- A flag or an extent is refused with this error. -/
  malformed : GemmError → Prop
  /-- The call that the arguments stand for. -/
  call : Decoded α A B γ → Prop

/-- A reader finds out what the arguments say. -/
structure Meaning.ReadBy {α A B γ : Type} (x : Meaning α A B γ)
    (decoded : Except GemmError (Decoded α A B γ)) : Prop where
  complete : x.missing ∨ (∃ e, x.malformed e) ∨ ∃ call, x.call call
  missing : x.missing → ∃ cause, decoded = .error (.invalidArguments cause)
  malformed : ∀ e, x.malformed e → decoded = .error e
  call : ∀ call, x.call call → decoded = .ok call

-- ---------------------------------------------------------------------------
-- Pointers
-- ---------------------------------------------------------------------------

namespace Pointer

variable {β : Type}

/-- The elements that an operand of `length` elements at a pointer has. One of no elements has
none, whatever the pointer. -/
inductive Holds : Pointer (Array β) → Nat → Array β → Prop where
  | empty (p : Pointer (Array β)) : Holds p 0 #[]
  | given (buffer : Array β) (length : Nat) : Holds (some buffer) length (buffer.extract 0 length)

/-- Null, although there are elements to be had. -/
def Lacks (p : Pointer (Array β)) (length : Nat) : Prop := p = none ∧ length ≠ 0

/-- Null, or enough elements of `bytes` bytes in one object. -/
def Suffices (p : Pointer (Array β)) (length bytes : Nat) : Prop :=
  ∀ buffer, p = some buffer → length ≤ buffer.size ∧ buffer.size * bytes ≤ Size.objectLimit

variable {p : Pointer (Array β)} {length bytes : Nat} {xs : Array β}

theorem read_eq_ok {p : Pointer β} {argument : String} {x : β} :
    p.read argument = .ok x ↔ p = some x := by
  cases p <;> simp [read]

theorem elements_eq_ok {argument : String} :
    p.elements length argument = .ok xs ↔ p.Holds length xs := by
  rw [elements]
  constructor
  · intro h
    split at h
    · rename_i hlength
      cases h
      exact hlength ▸ .empty p
    · cases p with
      | none => cases h
      | some buffer =>
        cases h
        exact .given buffer length
  · rintro (_ | ⟨buffer, length⟩)
    · simp
    · by_cases hlength : length = 0
      · simp [hlength]
      · simp [hlength, read, Functor.map, Except.map]

theorem Holds.of_null (h : Holds none length xs) : length = 0 ∧ xs = #[] := by
  cases h
  exact ⟨rfl, rfl⟩

/-- As many elements as asked for are the first ones of the buffer. -/
theorem Holds.extract {buffer : Array β} (h : Holds (some buffer) length xs)
    (hlength : xs.size = length) : length ≤ buffer.size ∧ xs = buffer.extract 0 length := by
  cases h with
  | empty => simp
  | given =>
    simp only [Array.size_extract] at hlength
    exact ⟨by omega, rfl⟩

theorem Holds.not_lacks (h : p.Holds length xs) : ¬ p.Lacks length := by
  cases h <;> simp [Lacks]

theorem exists_holds (h : ¬ p.Lacks length) : ∃ xs, p.Holds length xs := by
  cases p with
  | none =>
    obtain rfl : length = 0 := by simpa [Lacks] using h
    exact ⟨_, .empty none⟩
  | some buffer => exact ⟨_, .given buffer length⟩

section

variable (h : p.Suffices length bytes) (hxs : p.Holds length xs)

include h hxs

theorem Suffices.size : xs.size = length := by
  cases hxs with
  | empty => rfl
  | given buffer => simp [(h buffer rfl).1]

/-- The elements are part of one object. -/
theorem Suffices.bytes_le : xs.size * bytes ≤ Size.objectLimit := by
  rw [h.size hxs]
  cases hxs with
  | empty => simp
  | given buffer =>
    obtain ⟨hlength, hbytes⟩ := h buffer rfl
    exact Nat.le_trans (Nat.mul_le_mul_right _ hlength) hbytes

theorem Suffices.holds : p.Holds xs.size xs := by
  rw [h.size hxs]
  exact hxs

end

end Pointer

-- ---------------------------------------------------------------------------
-- Errors of the readers
-- ---------------------------------------------------------------------------

/-- A reader that fails blames an argument. -/
def Blames {β : Type} (x : Except GemmError β) : Prop :=
  ∀ e, x = .error e → ∃ cause, e = .invalidArguments cause

namespace Blames

variable {β δ : Type}

theorem ok (x : β) : Blames (.ok x : Except GemmError β) := by
  intro e h
  cases h

theorem bind {x : Except GemmError β} {f : β → Except GemmError δ} (hx : Blames x)
    (hf : ∀ b, Blames (f b)) : Blames (x >>= f) := by
  cases x with
  | error e => exact fun e' h => hx e' (by cases h; rfl)
  | ok b => exact hf b

theorem map {x : Except GemmError β} {f : β → δ} (hx : Blames x) : Blames (f <$> x) := by
  cases x with
  | error e => exact fun e' h => hx e' (by cases h; rfl)
  | ok b => exact .ok _

theorem of_reads {x : Except GemmError β} {legal : Prop} {value : β}
    (h : Reads x legal value) : Blames x := by
  intro e he
  by_cases hlegal : legal
  · cases he.symm.trans (h.ok hlegal)
  · obtain ⟨cause, hcause⟩ := h.wrong hlegal
    exact ⟨cause, Except.error.inj (he.symm.trans hcause)⟩

/-- What fails to give a value gives a blame. -/
theorem exists_of_not_ok {x : Except GemmError β} (hx : Blames x) (h : ∀ b, x ≠ .ok b) :
    ∃ cause, x = .error (.invalidArguments cause) := by
  cases x with
  | error e =>
    obtain ⟨cause, rfl⟩ := hx e rfl
    exact ⟨cause, rfl⟩
  | ok b => exact absurd rfl (h b)

theorem read (p : Pointer β) (argument : String) : Blames (p.read argument) := by
  cases p with
  | none => exact fun _ h => ⟨_, by cases h; rfl⟩
  | some x => exact .ok x

theorem elements (p : Pointer (Array β)) (length : Nat) (argument : String) :
    Blames (p.elements length argument) := by
  rw [Pointer.elements]
  split
  · exact .ok _
  · exact (read p argument).bind fun _ => .ok _

theorem span (operand : String) (x : Matrix) : Blames (span operand x) := by
  rw [Foreign.span]
  split
  · exact .ok _
  · exact fun _ h => ⟨_, by cases h; rfl⟩

end Blames

-- ---------------------------------------------------------------------------
-- Shapes
-- ---------------------------------------------------------------------------

theorem Blames.offsetFlag (byte : UInt8) : Blames (OffsetMode.ofFlag byte) := by
  rw [OffsetMode.ofFlag]
  split
  · exact .ok _
  · split
    · exact .ok _
    · split
      · exact .ok _
      · exact fun _ h => ⟨_, by cases h; rfl⟩

theorem span_eq_ok {operand : String} {x : Matrix} {length : Nat} :
    span operand x = .ok length ↔ length = x.requiredLen ∧ x.requiredLen ≤ Size.objectLimit := by
  rw [span]
  split <;> simp_all [eq_comm]

theorem Pointer.Suffices.span_ok {β : Type} {p : Pointer (Array β)} {x : Matrix} {e : ElemType}
    {xs : Array β} (h : p.Suffices x.requiredLen e.bytes) (hxs : p.Holds x.requiredLen xs)
    (operand : String) : span operand x = .ok x.requiredLen := by
  have hbytes := h.bytes_le hxs
  rw [h.size hxs] at hbytes
  exact span_eq_ok.mpr ⟨rfl, Nat.le_trans (e.le_mul_bytes _) hbytes⟩

/-- Values that stand for a shape stand for the one they are read as. -/
theorem eq_read_of_shape {x : ShapeValues} {s : GemmShape} (h : x.shape = .ok s) :
    s = x.read := by
  by_cases hsound : x.Sound
  · exact Except.ok.inj (h.symm.trans (x.reads_shape.ok hsound))
  · obtain ⟨cause, hcause⟩ := x.reads_shape.wrong hsound
    cases h.symm.trans hcause

namespace ShapeArguments

/-- All arguments are there, and `result` is what their values stand for. -/
def Given (x : ShapeArguments) (result : Except GemmError GemmShape) : Prop :=
  ∃ values : ShapeValues, values.shape = result ∧
    x = ⟨some values.transA, some values.transB, some values.m, some values.n, some values.k,
      some values.lda, some values.ldb, some values.ldc⟩

/-- An argument is null. -/
def Lacks (x : ShapeArguments) : Prop :=
  x.transA = none ∨ x.transB = none ∨ x.m = none ∨ x.n = none ∨ x.k = none ∨ x.lda = none ∨
    x.ldb = none ∨ x.ldc = none

variable {x : ShapeArguments} {result : Except GemmError GemmShape}

theorem Given.shape_eq (h : x.Given result) : x.shape = result := by
  obtain ⟨_, h, rfl⟩ := h
  exact h

theorem Given.unique {s s' : GemmShape} (h : x.Given (.ok s)) (h' : x.Given (.ok s')) : s = s' :=
  Except.ok.inj (h.shape_eq.symm.trans h'.shape_eq)

theorem Given.not_lacks (h : x.Given result) : ¬ x.Lacks := by
  obtain ⟨_, -, rfl⟩ := h
  simp [Lacks]

theorem exists_given (h : ¬ x.Lacks) : ∃ result, x.Given result := by
  simp only [Lacks, not_or, ← ne_eq, Option.ne_none_iff_exists'] at h
  obtain ⟨⟨transA, h₁⟩, ⟨transB, h₂⟩, ⟨m, h₃⟩, ⟨n, h₄⟩, ⟨k, h₅⟩, ⟨lda, h₆⟩, ⟨ldb, h₇⟩,
    ⟨ldc, h₈⟩⟩ := h
  refine ⟨_, ⟨transA, transB, m, n, k, lda, ldb, ldc⟩, rfl, ?_⟩
  cases x
  simp_all

theorem given_of_shape {s : GemmShape} (h : x.shape = .ok s) : x.Given (.ok s) := by
  simp only [shape, bind_ok, Pointer.read_eq_ok] at h
  obtain ⟨transA, h₁, transB, h₂, m, h₃, n, h₄, k, h₅, lda, h₆, ldb, h₇, ldc, h₈, h⟩ := h
  refine ⟨⟨transA, transB, m, n, k, lda, ldb, ldc⟩, h, ?_⟩
  cases x
  simp_all

theorem Given.addressable {s : GemmShape} (h : x.Given (.ok s)) {o : Outline} (ho : o.shape = s)
    (ha : o.lenA * o.elemA.bytes ≤ Size.objectLimit)
    (hb : o.lenB * o.elemB.bytes ≤ Size.objectLimit)
    (hc : o.lenC * o.elemC.bytes ≤ Size.objectLimit) : o.Addressable := by
  obtain ⟨values, hvalues, -⟩ := h
  obtain rfl := eq_read_of_shape hvalues
  have hlt (value : Int64) : value.toInt.toNat < Size.modulus := by
    have hvalue := value.toInt_lt
    simp only [Size.modulus]
    omega
  constructor <;> simp only [ho, ShapeValues.read, hlt, ha, hb, hc]

theorem shape_blames (x : ShapeArguments) : Blames x.shape :=
  (Blames.read _ _).bind fun _ => (Blames.read _ _).bind fun _ => (Blames.read _ _).bind fun _ =>
    (Blames.read _ _).bind fun _ => (Blames.read _ _).bind fun _ => (Blames.read _ _).bind fun _ =>
    (Blames.read _ _).bind fun _ => (Blames.read _ _).bind fun _ =>
    .of_reads (ShapeValues.reads_shape ⟨_, _, _, _, _, _, _, _⟩)

theorem extents_blames (x : ShapeArguments) (elemA elemB elemC : ElemType) :
    Blames (x.extents elemA elemB elemC) :=
  x.shape_blames.bind fun _ => (Blames.span _ _).bind fun _ => (Blames.span _ _).bind fun _ =>
    (Blames.span _ _).bind fun _ => .ok _

end ShapeArguments

-- ---------------------------------------------------------------------------
-- Real products
-- ---------------------------------------------------------------------------

namespace RealCall

variable {α A : Type} {elem : ElemType}

/-- `call` is what the arguments stand for, as a call on matrices with elements of type `elem`. -/
structure Stands (x : RealCall α A) (elem : ElemType) (call : Decoded α A A α) : Prop where
  shape : x.shape.Given (.ok call.request.shape)
  alpha : x.alpha = some call.request.alpha
  beta : x.beta = some call.request.beta
  a : x.a.Holds (call.request.shape.a elem).requiredLen call.request.a
  b : x.b.Holds (call.request.shape.b elem).requiredLen call.request.b
  c : x.c.Holds (call.request.shape.c .f32).requiredLen call.c
  bias : call.request.bias = x.bias.map (·.extract 0 call.request.shape.m)
  forceNocopy : call.request.forceNocopy = x.forceNocopy
  zeroPoints : call.request.zeroPoints = {}
  offset : call.request.offset = none

/-- A bias may be null, and so may an operand of no elements. -/
def meaning (x : RealCall α A) (elem : ElemType) : Meaning α A A α where
  missing := x.shape.Lacks ∨ x.alpha = none ∨ x.beta = none ∨
    ∃ s, x.shape.Given (.ok s) ∧ (x.a.Lacks (s.a elem).requiredLen ∨
      x.b.Lacks (s.b elem).requiredLen ∨ x.c.Lacks (s.c .f32).requiredLen)
  malformed e := x.shape.Given (.error e)
  call := x.Stands elem

/-- Every pointer is null or leads to as much as a call of shape `s` reads or writes, and the width
of a panel of C is a word. -/
structure Sound (x : RealCall α A) (elem : ElemType) (s : GemmShape) : Prop where
  a : x.a.Suffices (s.a elem).requiredLen elem.bytes
  b : x.b.Suffices (s.b elem).requiredLen elem.bytes
  c : x.c.Suffices (s.c .f32).requiredLen ElemType.f32.bytes
  bias : x.bias.Suffices s.m ElemType.f32.bytes
  wide : s.ldc * tileCols < Size.modulus

variable {x : RealCall α A} {call : Decoded α A A α}

theorem decode_blames (x : RealCall α A) (elem : ElemType) : Blames (x.decode elem) := by
  refine (x.shape.extents_blames _ _ _).bind fun _ => (Blames.read _ _).bind fun _ =>
    (Blames.read _ _).bind fun _ => (Blames.elements _ _ _).bind fun _ =>
    (Blames.elements _ _ _).bind fun _ => (Blames.elements _ _ _).bind fun _ => ?_
  split
  · exact .ok _
  · exact (Blames.elements _ _ _).map.bind fun _ => .ok _

/-- A bias is read if there is one, and is never found missing. -/
theorem decode_eq (x : RealCall α A) (elem : ElemType) :
    x.decode elem = do
      let extents ← x.shape.extents elem elem .f32
      let alpha ← x.alpha.read "alpha"
      let beta ← x.beta.read "beta"
      let a ← x.a.elements extents.a "A"
      let b ← x.b.elements extents.b "B"
      let c ← x.c.elements extents.c "C"
      return {
        request := {
          shape := extents.shape, a, b, alpha, beta
          bias := x.bias.map (·.extract 0 extents.shape.m)
          forceNocopy := x.forceNocopy }
        c } := by
  rw [decode]
  cases x.bias with
  | none => rfl
  | some bias =>
    have hread (m : Nat) : Pointer.elements (some bias) m "bias" = .ok (bias.extract 0 m) :=
      Pointer.elements_eq_ok.mpr (.given bias m)
    simp only [hread]
    rfl

/-- Whatever is read as a call stands for it. -/
theorem stands_of_decode (h : x.decode elem = .ok call) : x.Stands elem call := by
  simp only [decode_eq, ShapeArguments.extents, bind_ok, Pointer.read_eq_ok,
    Pointer.elements_eq_ok, span_eq_ok, pure, Except.pure, Except.ok.injEq] at h
  obtain ⟨_, ⟨s, hs, _, ⟨rfl, -⟩, _, ⟨rfl, -⟩, _, ⟨rfl, -⟩, rfl⟩, alpha, halpha, beta, hbeta, a, ha,
    b, hb, c, hc, rfl⟩ := h
  exact {
    shape := ShapeArguments.given_of_shape hs
    alpha := halpha
    beta := hbeta
    a := ha
    b := hb
    c := hc
    bias := rfl
    forceNocopy := rfl
    zeroPoints := rfl
    offset := rfl }

theorem Stands.decode (h : x.Stands elem call) (hsound : x.Sound elem call.request.shape) :
    x.decode elem = .ok call := by
  obtain ⟨⟨s, a, b, alpha, beta, bias, zeroPoints, offset, forceNocopy⟩, c⟩ := call
  obtain ⟨hshape, halpha, hbeta, ha, hb, hc, hbias, hnocopy, hzero, hoffset⟩ := h
  simp only at hbias hnocopy hzero hoffset
  subst hbias hnocopy hzero hoffset
  simp only [decode_eq, ShapeArguments.extents, bind_ok, Pointer.read_eq_ok,
    Pointer.elements_eq_ok, pure, Except.pure, Except.ok.injEq]
  exact ⟨_, ⟨s, hshape.shape_eq, _, hsound.a.span_ok ha "A", _, hsound.b.span_ok hb "B", _,
    hsound.c.span_ok hc "C", rfl⟩, alpha, halpha, beta, hbeta, a, ha, b, hb, c, hc, rfl⟩

theorem Stands.addressable (h : x.Stands elem call) (hsound : x.Sound elem call.request.shape)
    (ar : Arith α) : (call.request.outline ar elem elem .f32 call.c.size).Addressable :=
  h.shape.addressable rfl (hsound.a.bytes_le h.a) (hsound.b.bytes_le h.b) (hsound.c.bytes_le h.c)

theorem Stands.not_missing (h : x.Stands elem call) : ¬ (x.meaning elem).missing := by
  rintro (hshape | halpha | hbeta | ⟨s, hs, hlacks⟩)
  · exact h.shape.not_lacks hshape
  · simp [h.alpha] at halpha
  · simp [h.beta] at hbeta
  · obtain rfl : s = call.request.shape := hs.unique h.shape
    rcases hlacks with ha | hb | hc
    · exact h.a.not_lacks ha
    · exact h.b.not_lacks hb
    · exact h.c.not_lacks hc

theorem meaning_complete (x : RealCall α A) (elem : ElemType)
    (h : ¬ (x.meaning elem).missing) :
    (∃ e, (x.meaning elem).malformed e) ∨ ∃ call, x.Stands elem call := by
  simp only [meaning, not_or, not_exists, not_and] at h
  obtain ⟨hshape, halpha, hbeta, hoperands⟩ := h
  obtain ⟨result, hresult⟩ := ShapeArguments.exists_given hshape
  obtain ⟨alpha, halpha⟩ := Option.ne_none_iff_exists'.mp halpha
  obtain ⟨beta, hbeta⟩ := Option.ne_none_iff_exists'.mp hbeta
  cases result with
  | error e => exact .inl ⟨e, hresult⟩
  | ok s =>
    obtain ⟨ha, hb, hc⟩ := hoperands s hresult
    obtain ⟨a, ha⟩ := Pointer.exists_holds ha
    obtain ⟨b, hb⟩ := Pointer.exists_holds hb
    obtain ⟨c, hc⟩ := Pointer.exists_holds hc
    let request : Request α A A := {
      shape := s, a, b, alpha, beta
      bias := x.bias.map (·.extract 0 s.m)
      forceNocopy := x.forceNocopy }
    exact .inr ⟨⟨request, c⟩, hresult, halpha, hbeta, ha, hb, hc, rfl, rfl, rfl, rfl⟩

theorem readBy_decode (x : RealCall α A) (elem : ElemType)
    (hsound : ∀ s, x.shape.Given (.ok s) → x.Sound elem s) :
    (x.meaning elem).ReadBy (x.decode elem) where
  complete := Classical.or_iff_not_imp_left.mpr (x.meaning_complete elem)
  missing h := (x.decode_blames elem).exists_of_not_ok fun call hcall =>
    (stands_of_decode hcall).not_missing h
  malformed e he := by
    rw [decode, ShapeArguments.extents, he.shape_eq]
    rfl
  call call hcall := hcall.decode (hsound _ hcall.shape)

end RealCall

-- ---------------------------------------------------------------------------
-- Quantized products
-- ---------------------------------------------------------------------------

namespace QuantizedCall

variable {α B : Type} {kind : IntKind B}

/-- The flag is there, and `result` is what it stands for. -/
def Mode (x : QuantizedCall α B) (result : Except GemmError OffsetMode) : Prop :=
  ∃ byte, x.offsetMode = some byte ∧ OffsetMode.ofFlag byte = result

/-- `call` is what the arguments stand for. -/
structure Stands (x : QuantizedCall α B) (kind : IntKind B) (call : Decoded α Int8 B Int32) :
    Prop where
  shape : x.shape.Given (.ok call.request.shape)
  alpha : x.alpha = some call.request.alpha
  beta : x.beta = some call.request.beta
  zeroA : x.zeroA = some call.request.zeroPoints.a
  zeroB : x.zeroB = some call.request.zeroPoints.b
  a : x.a.Holds (call.request.shape.a .s8).requiredLen call.request.a
  b : x.b.Holds (call.request.shape.b kind.elem).requiredLen call.request.b
  c : x.c.Holds (call.request.shape.c .s32).requiredLen call.c
  offset : ∃ offset, call.request.offset = some offset ∧ x.Mode (.ok offset.mode) ∧
    x.offset.Holds (offset.mode.requiredLen call.request.shape.m call.request.shape.n)
      offset.values
  bias : call.request.bias = none
  forceNocopy : call.request.forceNocopy = false

/-- Nothing may be null but operands and offsets of no elements. -/
def meaning (x : QuantizedCall α B) (kind : IntKind B) : Meaning α Int8 B Int32 where
  missing := x.offsetMode = none ∨ x.shape.Lacks ∨ x.alpha = none ∨ x.beta = none ∨
    x.zeroA = none ∨ x.zeroB = none ∨
    ∃ mode s, x.Mode (.ok mode) ∧ x.shape.Given (.ok s) ∧ (x.a.Lacks (s.a .s8).requiredLen ∨
      x.b.Lacks (s.b kind.elem).requiredLen ∨ x.c.Lacks (s.c .s32).requiredLen ∨
      x.offset.Lacks (mode.requiredLen s.m s.n))
  malformed e := x.Mode (.error e) ∨ (∃ mode, x.Mode (.ok mode)) ∧ x.shape.Given (.error e)
  call := x.Stands kind

/-- Every pointer is null or leads to as much as a call of shape `s` reads or writes, and the width
of a panel of C is a word. -/
structure Sound (x : QuantizedCall α B) (kind : IntKind B) (s : GemmShape) : Prop where
  a : x.a.Suffices (s.a .s8).requiredLen ElemType.s8.bytes
  b : x.b.Suffices (s.b kind.elem).requiredLen kind.elem.bytes
  c : x.c.Suffices (s.c .s32).requiredLen ElemType.s32.bytes
  offset : ∀ mode, x.Mode (.ok mode) →
    x.offset.Suffices (mode.requiredLen s.m s.n) ElemType.s32.bytes
  wide : s.ldc * tileCols < Size.modulus

variable {x : QuantizedCall α B} {call : Decoded α Int8 B Int32}

theorem Mode.unique {result result' : Except GemmError OffsetMode} (h : x.Mode result)
    (h' : x.Mode result') : result = result' := by
  obtain ⟨byte, hbyte, rfl⟩ := h
  obtain ⟨byte', hbyte', rfl⟩ := h'
  rw [Option.some.inj (hbyte.symm.trans hbyte')]

theorem decode_blames (x : QuantizedCall α B) (kind : IntKind B) : Blames (x.decode kind) :=
  (Blames.read _ _).bind fun _ => (Blames.offsetFlag _).bind fun _ =>
    (x.shape.extents_blames _ _ _).bind fun _ => (Blames.read _ _).bind fun _ =>
    (Blames.read _ _).bind fun _ => (Blames.read _ _).bind fun _ => (Blames.read _ _).bind fun _ =>
    (Blames.elements _ _ _).bind fun _ => (Blames.elements _ _ _).bind fun _ =>
    (Blames.elements _ _ _).bind fun _ => (Blames.elements _ _ _).bind fun _ => .ok _

/-- Whatever is read as a call stands for it. -/
theorem stands_of_decode (h : x.decode kind = .ok call) : x.Stands kind call := by
  simp only [decode, ShapeArguments.extents, bind_ok, Pointer.read_eq_ok,
    Pointer.elements_eq_ok, span_eq_ok, pure, Except.pure, Except.ok.injEq] at h
  obtain ⟨byte, hbyte, mode, hmode, _, ⟨s, hs, _, ⟨rfl, -⟩, _, ⟨rfl, -⟩, _, ⟨rfl, -⟩, rfl⟩, alpha,
    halpha, beta, hbeta, zeroA, hzeroA, zeroB, hzeroB, a, ha, b, hb, c, hc, values, hvalues,
    rfl⟩ := h
  exact {
    shape := ShapeArguments.given_of_shape hs
    alpha := halpha
    beta := hbeta
    zeroA := hzeroA
    zeroB := hzeroB
    a := ha
    b := hb
    c := hc
    offset := ⟨_, rfl, ⟨byte, hbyte, hmode⟩, hvalues⟩
    bias := rfl
    forceNocopy := rfl }

theorem Stands.decode (h : x.Stands kind call) (hsound : x.Sound kind call.request.shape) :
    x.decode kind = .ok call := by
  obtain ⟨⟨s, a, b, alpha, beta, bias, ⟨zeroA, zeroB⟩, offset, forceNocopy⟩, c⟩ := call
  obtain ⟨hshape, halpha, hbeta, hzeroA, hzeroB, ha, hb, hc,
    ⟨⟨mode, values⟩, rfl, ⟨byte, hbyte, hmode⟩, hvalues⟩, rfl, rfl⟩ := h
  simp only [QuantizedCall.decode, ShapeArguments.extents, bind_ok, Pointer.read_eq_ok,
    Pointer.elements_eq_ok, pure, Except.pure, Except.ok.injEq]
  exact ⟨byte, hbyte, mode, hmode, _, ⟨s, hshape.shape_eq, _, hsound.a.span_ok ha "A", _,
    hsound.b.span_ok hb "B", _, hsound.c.span_ok hc "C", rfl⟩, alpha, halpha, beta, hbeta, zeroA,
    hzeroA, zeroB, hzeroB, a, ha, b, hb, c, hc, values, hvalues, rfl⟩

theorem Stands.addressable (h : x.Stands kind call) (hsound : x.Sound kind call.request.shape)
    (ar : Arith α) : (call.request.outline ar .s8 kind.elem .s32 call.c.size).Addressable :=
  h.shape.addressable rfl (hsound.a.bytes_le h.a) (hsound.b.bytes_le h.b) (hsound.c.bytes_le h.c)

theorem Stands.not_missing (h : x.Stands kind call) : ¬ (x.meaning kind).missing := by
  obtain ⟨offset, -, hmode, hvalues⟩ := h.offset
  rintro (hflag | hshape | halpha | hbeta | hzeroA | hzeroB | ⟨mode, s, hm, hs, hlacks⟩)
  · obtain ⟨byte, hbyte, -⟩ := hmode
    simp [hbyte] at hflag
  · exact h.shape.not_lacks hshape
  · simp [h.alpha] at halpha
  · simp [h.beta] at hbeta
  · simp [h.zeroA] at hzeroA
  · simp [h.zeroB] at hzeroB
  · obtain rfl : s = call.request.shape := hs.unique h.shape
    obtain rfl : mode = offset.mode := Except.ok.inj (hm.unique hmode)
    rcases hlacks with ha | hb | hc | hoffset
    · exact h.a.not_lacks ha
    · exact h.b.not_lacks hb
    · exact h.c.not_lacks hc
    · exact hvalues.not_lacks hoffset

theorem meaning_complete (x : QuantizedCall α B) (kind : IntKind B)
    (h : ¬ (x.meaning kind).missing) :
    (∃ e, (x.meaning kind).malformed e) ∨ ∃ call, x.Stands kind call := by
  simp only [meaning, not_or, not_exists, not_and] at h
  obtain ⟨hflag, hshape, halpha, hbeta, hzeroA, hzeroB, hoperands⟩ := h
  obtain ⟨byte, hbyte⟩ := Option.ne_none_iff_exists'.mp hflag
  obtain ⟨result, hresult⟩ := ShapeArguments.exists_given hshape
  obtain ⟨alpha, halpha⟩ := Option.ne_none_iff_exists'.mp halpha
  obtain ⟨beta, hbeta⟩ := Option.ne_none_iff_exists'.mp hbeta
  obtain ⟨zeroA, hzeroA⟩ := Option.ne_none_iff_exists'.mp hzeroA
  obtain ⟨zeroB, hzeroB⟩ := Option.ne_none_iff_exists'.mp hzeroB
  cases hmode : OffsetMode.ofFlag byte with
  | error e => exact .inl ⟨e, .inl ⟨byte, hbyte, hmode⟩⟩
  | ok mode =>
    have hmode : x.Mode (.ok mode) := ⟨byte, hbyte, hmode⟩
    cases result with
    | error e => exact .inl ⟨e, .inr ⟨⟨mode, hmode⟩, hresult⟩⟩
    | ok s =>
      obtain ⟨ha, hb, hc, hoffset⟩ := hoperands mode s hmode hresult
      obtain ⟨a, ha⟩ := Pointer.exists_holds ha
      obtain ⟨b, hb⟩ := Pointer.exists_holds hb
      obtain ⟨c, hc⟩ := Pointer.exists_holds hc
      obtain ⟨values, hvalues⟩ := Pointer.exists_holds hoffset
      let request : Request α Int8 B := {
        shape := s, a, b, alpha, beta
        zeroPoints := ⟨zeroA, zeroB⟩
        offset := some ⟨mode, values⟩ }
      exact .inr ⟨⟨request, c⟩, hresult, halpha, hbeta, hzeroA, hzeroB, ha, hb, hc,
        ⟨_, rfl, hmode, hvalues⟩, rfl, rfl⟩

theorem readBy_decode (x : QuantizedCall α B) (kind : IntKind B)
    (hsound : ∀ s, x.shape.Given (.ok s) → x.Sound kind s) :
    (x.meaning kind).ReadBy (x.decode kind) where
  complete := Classical.or_iff_not_imp_left.mpr (x.meaning_complete kind)
  missing h := (x.decode_blames kind).exists_of_not_ok fun call hcall =>
    (stands_of_decode hcall).not_missing h
  malformed e he := by
    rcases he with ⟨byte, hbyte, hmode⟩ | ⟨⟨mode, byte, hbyte, hmode⟩, hshape⟩
    · have hread : x.offsetMode.read "offsetc" = .ok byte := Pointer.read_eq_ok.mpr hbyte
      simp only [decode, hread, bind, Except.bind, hmode]
    · have hread : x.offsetMode.read "offsetc" = .ok byte := Pointer.read_eq_ok.mpr hbyte
      simp only [decode, ShapeArguments.extents, hread, bind, Except.bind, hmode, hshape.shape_eq]
  call call hcall := hcall.decode (hsound _ hcall.shape)

end QuantizedCall

end JitGemm.Foreign
