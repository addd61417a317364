import JitGemm.Proofs.Foreign.Sessions

/-!
# Slices that foreign calls form

A foreign call takes the operands behind its pointers as slices, one after the other, before the
dispatcher sees any of them. A slice must not be longer than an object can be, and objects are
measured in bytes. The readers count elements.
-/

namespace JitGemm.Foreign

/-- A stretch of `length` elements behind a pointer. -/
structure Slice where
  argument : String
  length : Nat
  elem : ElemType
  deriving DecidableEq, Repr

namespace Slice

def bytes (x : Slice) : Nat := x.length * x.elem.bytes

def Fits (x : Slice) : Prop := x.bytes ≤ Size.objectLimit

instance (x : Slice) : Decidable x.Fits := inferInstanceAs (Decidable (_ ≤ _))

theorem fits_of_byte {x : Slice} (hbyte : x.elem.bytes = 1) (h : x.length ≤ Size.objectLimit) :
    x.Fits := by
  rw [Fits, bytes, hbyte, Nat.mul_one]
  exact h

end Slice

-- ---------------------------------------------------------------------------
-- Readers that leave a trace
-- ---------------------------------------------------------------------------

/-- What a reader comes to, with the slices that it formed until its end or its failure. -/
structure Traced (β : Type) where
  result : Except GemmError β
  slices : List Slice := []

namespace Traced

variable {β δ : Type}

instance : Monad Traced where
  pure b := ⟨.ok b, []⟩
  bind t f := match t.result with
    | .error e => ⟨.error e, t.slices⟩
    | .ok b => ⟨(f b).result, t.slices ++ (f b).slices⟩

/-- Judging a value forms no slice. -/
instance : MonadLift (Except GemmError) Traced := ⟨fun result => { result }⟩

@[simp] theorem result_lift (x : Except GemmError β) : (liftM x : Traced β).result = x := rfl

@[simp] theorem result_pure (b : β) : (pure b : Traced β).result = .ok b := rfl

@[simp] theorem result_bind (t : Traced β) (f : β → Traced δ) :
    (t >>= f).result = t.result >>= fun b => (f b).result := by
  rw [show t >>= f = match t.result with
    | .error e => ⟨.error e, t.slices⟩
    | .ok b => ⟨(f b).result, t.slices ++ (f b).slices⟩ from rfl]
  cases t.result <;> rfl

theorem lift_bind_ok (b : β) (f : β → Traced δ) :
    (liftM (.ok b : Except GemmError β) : Traced β) >>= f = f b := rfl

theorem bind_of_ok {t : Traced β} {b : β} (h : t.result = .ok b) (f : β → Traced δ) :
    t >>= f = ⟨(f b).result, t.slices ++ (f b).slices⟩ := by
  simp only [bind, h]

theorem bind_of_error {t : Traced β} {e : GemmError} (h : t.result = .error e)
    (f : β → Traced δ) : t >>= f = ⟨.error e, t.slices⟩ := by
  simp only [bind, h]

theorem map_eq (g : β → δ) (t : Traced β) : g <$> t = ⟨g <$> t.result, t.slices⟩ := by
  obtain ⟨_ | b, slices⟩ := t
  · rfl
  · exact congrArg _ (List.append_nil slices)

@[simp] theorem result_map (g : β → δ) (t : Traced β) : (g <$> t).result = g <$> t.result := by
  rw [map_eq]

/-- A reader that wants the slices of `wanted` forms those with elements, in this order, until it
fails. The ones that it forms are as `P` says. -/
structure Forms (t : Traced β) (wanted : List Slice) (P : Slice → Prop) : Prop where
  order : t.slices <+: wanted.filter (0 < ·.length)
  whole : ∀ b, t.result = .ok b → t.slices = wanted.filter (0 < ·.length)
  each : ∀ x ∈ t.slices, P x

namespace Forms

variable {P : Slice → Prop} {wanted : List Slice}

theorem of_error {e : GemmError} : (⟨.error e, []⟩ : Traced β).Forms wanted P :=
  ⟨List.nil_prefix, by rintro _ ⟨⟩, by rintro _ ⟨⟩⟩

theorem pure (b : β) : (pure b : Traced β).Forms [] P :=
  ⟨List.nil_prefix, fun _ _ => rfl, by rintro _ ⟨⟩⟩

theorem lift_bind {x : Except GemmError β} {f : β → Traced δ}
    (h : ∀ b, x = .ok b → (f b).Forms wanted P) : ((liftM x : Traced β) >>= f).Forms wanted P := by
  cases x with
  | error e => exact .of_error
  | ok b => exact h b rfl

theorem map_bind {ε : Type} {g : β → δ} {t : Traced β} {f : δ → Traced ε}
    (h : (t >>= fun b => f (g b)).Forms wanted P) : (g <$> t >>= f).Forms wanted P := by
  rw [map_eq]
  obtain ⟨_ | b, slices⟩ := t <;> exact h

end Forms

end Traced

namespace Pointer

variable {β δ : Type}

/-- Takes a slice behind a pointer. One without elements is not taken from the pointer. -/
def borrow (p : Pointer (Array β)) (x : Slice) : Traced (Array β) where
  result := p.elements x.length x.argument
  slices := if 0 < x.length ∧ p.isSome then [x] else []

@[simp] theorem result_borrow (p : Pointer (Array β)) (x : Slice) :
    (p.borrow x).result = p.elements x.length x.argument := rfl

variable {p : Pointer (Array β)} {x : Slice}

/-- Only a null pointer fails, and no slice is taken from it. -/
theorem slices_of_error {e : GemmError} (h : (p.borrow x).result = .error e) :
    (p.borrow x).slices = [] := by
  cases p with
  | none => simp [borrow]
  | some buffer =>
    rw [result_borrow, elements_eq_ok.mpr (.given buffer x.length)] at h
    cases h

theorem slices_of_ok {xs : Array β} (h : (p.borrow x).result = .ok xs) :
    (p.borrow x).slices = [x].filter (0 < ·.length) := by
  have hheld : p.Holds x.length xs := elements_eq_ok.mp h
  by_cases hlength : 0 < x.length
  · have hsome : p.isSome := by
      cases p with
      | none => exact absurd hheld.of_null.1 hlength.ne'
      | some buffer => rfl
    simp [borrow, hlength, hsome]
  · simp [borrow, hlength]

theorem exists_buffer {y : Slice} (h : y ∈ (p.borrow x).slices) :
    y = x ∧ ∃ buffer, p = some buffer := by
  rw [borrow] at h
  split at h
  · rename_i hx
    exact ⟨List.mem_singleton.mp h, Option.isSome_iff_exists.mp hx.2⟩
  · cases h

/-- A reader takes the first slice that is wanted and goes on with the others. -/
theorem borrow_bind {f : Array β → Traced δ} {wanted : List Slice} {P : Slice → Prop}
    (hx : ∀ buffer, p = some buffer → P x) (h : ∀ xs, (f xs).Forms wanted P) :
    (p.borrow x >>= f).Forms (x :: wanted) P := by
  cases hresult : (p.borrow x).result with
  | error e =>
    rw [Traced.bind_of_error hresult, slices_of_error hresult]
    exact .of_error
  | ok xs =>
    obtain ⟨horder, hwhole, heach⟩ := h xs
    have hsplit : (x :: wanted).filter (0 < ·.length) =
        (p.borrow x).slices ++ wanted.filter (0 < ·.length) := by
      rw [slices_of_ok hresult, ← List.filter_append, List.singleton_append]
    rw [Traced.bind_of_ok hresult]
    refine ⟨?_, fun b hb => by rw [hsplit, hwhole b hb], fun y hy => ?_⟩
    · rw [hsplit]
      exact (List.prefix_append_right_inj _).mpr horder
    · rcases List.mem_append.mp hy with hy | hy
      · obtain ⟨rfl, buffer, hbuffer⟩ := exists_buffer hy
        exact hx buffer hbuffer
      · exact heach y hy

end Pointer

-- ---------------------------------------------------------------------------
-- Slices of single calls
-- ---------------------------------------------------------------------------

/-- What becomes of the slices of a call. Its arguments want the slices of a list for which `wants`
holds, `sound` is the promise about its buffers, and `status` is what it answers with. -/
structure Formed (slices : List Slice) (wants : List Slice → Prop) (sound : Prop)
    (status : Option Status) : Prop where
  /-- Arguments that stand for no product are refused, and nothing is sliced. -/
  shapeless : (∀ wanted, ¬ wants wanted) → slices = [] ∧ status = some .invalidArguments
  order : ∀ wanted, wants wanted → slices <+: wanted.filter (0 < ·.length)
  /-- A call that is not refused for its arguments formed all of them. -/
  whole : ∀ wanted, wants wanted →
    slices = wanted.filter (0 < ·.length) ∨ status = some .invalidArguments
  /-- More elements than an object has bytes are refused before anything is sliced. -/
  refused : ∀ wanted, wants wanted → ∀ x ∈ wanted, Size.objectLimit < x.length →
    slices = [] ∧ status = some .invalidArguments
  /-- The bound on the elements of a slice. -/
  counted : ∀ x ∈ slices, 0 < x.length ∧ x.length ≤ Size.objectLimit
  /-- The bound on its bytes, for elements of one byte and for buffers that are there. -/
  fits : ∀ x ∈ slices, x.elem.bytes = 1 ∨ sound → x.Fits

/-- A reader either stops before its first slice or forms slices of no more elements than an object
has bytes. -/
theorem Traced.formed {α A B γ : Type} {t : Traced (Decoded α A B γ)}
    {wants : List Slice → Prop} {sound : Prop} (hblames : Blames t.result)
    (hunique : ∀ wanted wanted', wants wanted → wants wanted' → wanted = wanted')
    (ht : (∃ e, t = { result := .error e }) ∨
      ∃ wanted, wants wanted ∧ t.Forms wanted (fun x => sound → x.Fits) ∧
        ∀ x ∈ wanted, x.length ≤ Size.objectLimit)
    (s : Session α) (c : Pointer (Array γ)) (entry : Entry α A B γ) :
    Formed t.slices wants sound (some (s.run c t.result entry).1.status) := by
  have hstatus : ∀ e, t.result = .error e →
      some (s.run c t.result entry).1.status = some .invalidArguments := by
    intro e he
    obtain ⟨cause, rfl⟩ := hblames e he
    rw [he]
    rfl
  rcases ht with ⟨e, rfl⟩ | ⟨wanted, hwants, hforms, hcounted⟩
  · exact {
      shapeless := fun _ => ⟨rfl, hstatus e rfl⟩
      order := fun _ _ => List.nil_prefix
      whole := fun _ _ => .inr (hstatus e rfl)
      refused := fun _ _ _ _ _ => ⟨rfl, hstatus e rfl⟩
      counted := by rintro _ ⟨⟩
      fits := by rintro _ ⟨⟩ }
  · -- a shape was read, so these are the slices that the arguments want
    have hmem : ∀ x ∈ t.slices, x ∈ wanted ∧ 0 < x.length := fun x hx => by
      simpa using hforms.order.subset hx
    exact {
      shapeless := fun h => absurd hwants (h wanted)
      order := fun wanted' h => hunique wanted wanted' hwants h ▸ hforms.order
      whole := fun wanted' h => by
        obtain rfl := hunique wanted wanted' hwants h
        cases hresult : t.result with
        | error e => exact .inr (hresult ▸ hstatus e hresult)
        | ok call => exact .inl (hforms.whole call hresult)
      refused := fun wanted' h x hx hlong => by
        obtain rfl := hunique wanted wanted' hwants h
        exact absurd (hcounted x hx) (Nat.not_le_of_lt hlong)
      counted := fun x hx => ⟨(hmem x hx).2, hcounted x (hmem x hx).1⟩
      fits := fun x hx hx' => hx'.elim
        (fun hbyte => Slice.fits_of_byte hbyte (hcounted x (hmem x hx).1)) (hforms.each x hx) }

theorem Pointer.Suffices.fits {β : Type} {p : Pointer (Array β)} {length : Nat} {elem : ElemType}
    (h : p.Suffices length elem.bytes) {buffer : Array β} (hp : p = some buffer)
    (argument : String) : (Slice.mk argument length elem).Fits := by
  obtain ⟨hlength, hbytes⟩ := h buffer hp
  exact Nat.le_trans (Nat.mul_le_mul_right elem.bytes hlength) hbytes

/-- The operands of a product. -/
def operandSlices (s : GemmShape) (elemA elemB elemC : ElemType) : List Slice :=
  [⟨"A", (s.a elemA).requiredLen, elemA⟩, ⟨"B", (s.b elemB).requiredLen, elemB⟩,
    ⟨"C", (s.c elemC).requiredLen, elemC⟩]

namespace ShapeArguments

variable {x : ShapeArguments} {elemA elemB elemC : ElemType} {extents : Extents}

theorem extents_eq_ok (h : x.extents elemA elemB elemC = .ok extents) :
    ∃ s, x.Given (.ok s) ∧
      extents = ⟨s, (s.a elemA).requiredLen, (s.b elemB).requiredLen, (s.c elemC).requiredLen⟩ ∧
      ∀ y ∈ operandSlices s elemA elemB elemC, y.length ≤ Size.objectLimit := by
  simp only [ShapeArguments.extents, bind_ok, span_eq_ok, pure, Except.pure,
    Except.ok.injEq] at h
  obtain ⟨s, hs, _, ⟨rfl, ha⟩, _, ⟨rfl, hb⟩, _, ⟨rfl, hc⟩, rfl⟩ := h
  exact ⟨s, given_of_shape hs, rfl, by simp [operandSlices, ha, hb, hc]⟩

/-- Extents are given as signed words. -/
theorem Given.extents_le {s : GemmShape} (h : x.Given (.ok s)) :
    s.m ≤ Size.objectLimit ∧ s.n ≤ Size.objectLimit := by
  obtain ⟨values, hvalues, -⟩ := h
  obtain rfl := eq_read_of_shape hvalues
  have hle (value : Int64) : value.toInt.toNat ≤ Size.objectLimit := by
    have hvalue := value.toInt_lt
    simp only [Size.objectLimit]
    omega
  exact ⟨hle values.m, hle values.n⟩

theorem Given.offset_le {s : GemmShape} (h : x.Given (.ok s)) (mode : OffsetMode) :
    mode.requiredLen s.m s.n ≤ Size.objectLimit := by
  cases mode with
  | fixed => exact (by decide : 1 ≤ Size.objectLimit)
  | rowWise => exact h.extents_le.2
  | columnWise => exact h.extents_le.1

end ShapeArguments

section

variable {α A B : Type}

namespace RealCall

/-- Reads a real product and keeps track of the slices. -/
def traced (x : RealCall α A) (elem : ElemType) : Traced (Decoded α A A α) := do
  let extents ← x.shape.extents elem elem .f32
  let alpha ← x.alpha.read "alpha"
  let beta ← x.beta.read "beta"
  let a ← x.a.borrow ⟨"A", extents.a, elem⟩
  let b ← x.b.borrow ⟨"B", extents.b, elem⟩
  let c ← x.c.borrow ⟨"C", extents.c, .f32⟩
  let bias ← match x.bias with
    | none => pure none
    | some _ => some <$> x.bias.borrow ⟨"bias", extents.shape.m, .f32⟩
  return {
    request := { shape := extents.shape, a, b, alpha, beta, bias, forceNocopy := x.forceNocopy }
    c }

/-- A product wants its operands, and its bias if there is one. -/
def wanted (x : RealCall α A) (elem : ElemType) (s : GemmShape) : List Slice :=
  operandSlices s elem elem .f32 ++ x.bias.toList.map fun _ => ⟨"bias", s.m, .f32⟩

/-- The slices that the arguments want, if they stand for a shape. -/
def Wants (x : RealCall α A) (elem : ElemType) (slices : List Slice) : Prop :=
  ∃ s, x.shape.Given (.ok s) ∧ slices = x.wanted elem s

variable {x : RealCall α A} {elem : ElemType}

theorem result_traced (x : RealCall α A) (elem : ElemType) :
    (x.traced elem).result = x.decode elem := by
  cases hbias : x.bias <;>
    simp only [traced, decode, hbias, Traced.result_bind, Traced.result_lift, Traced.result_map,
      Pointer.result_borrow] <;> rfl

/-- A product of shape `s` forms the slices that it wants, and they fit if its buffers do. -/
theorem traced_forms {s : GemmShape} (hs : x.shape.Given (.ok s))
    (hextents : x.shape.extents elem elem .f32 =
      .ok ⟨s, (s.a elem).requiredLen, (s.b elem).requiredLen, (s.c .f32).requiredLen⟩) :
    (x.traced elem).Forms (x.wanted elem s)
      fun y => (∀ s, x.shape.Given (.ok s) → x.Sound elem s) → y.Fits := by
  refine .lift_bind fun extents h => ?_
  obtain rfl := Except.ok.inj (hextents.symm.trans h)
  refine .lift_bind fun alpha _ => .lift_bind fun beta _ => ?_
  refine Pointer.borrow_bind (fun buffer hbuffer hsound => ?_) fun a => ?_
  · exact (hsound s hs).a.fits hbuffer "A"
  refine Pointer.borrow_bind (fun buffer hbuffer hsound => ?_) fun b => ?_
  · exact (hsound s hs).b.fits hbuffer "B"
  refine Pointer.borrow_bind (fun buffer hbuffer hsound => ?_) fun c => ?_
  · exact (hsound s hs).c.fits hbuffer "C"
  cases hbias : x.bias with
  | none => exact .lift_bind fun _ _ => .pure _
  | some bias =>
    refine .map_bind (Pointer.borrow_bind (fun buffer hbuffer hsound => ?_) fun _ => .pure _)
    exact (hsound s hs).bias.fits (hbias.trans hbuffer) "bias"

theorem formed (x : RealCall α A) (elem : ElemType) (s : Session α) (entry : Entry α A A α) :
    Formed (x.traced elem).slices (x.Wants elem) (∀ s, x.shape.Given (.ok s) → x.Sound elem s)
      (some (s.run x.c (x.decode elem) entry).1.status) := by
  rw [← x.result_traced elem]
  refine Traced.formed (x.result_traced elem ▸ x.decode_blames elem) ?_ ?_ s x.c entry
  · rintro _ _ ⟨s, hs, rfl⟩ ⟨s', hs', rfl⟩
    rw [hs.unique hs']
  cases hextents : x.shape.extents elem elem .f32 with
  | error e => exact .inl ⟨e, by rw [traced, hextents]; rfl⟩
  | ok extents =>
    obtain ⟨s, hs, rfl, hoperands⟩ := ShapeArguments.extents_eq_ok hextents
    refine .inr ⟨x.wanted elem s, ⟨s, hs, rfl⟩, traced_forms hs hextents, fun y hy => ?_⟩
    rcases List.mem_append.mp hy with hy | hy
    · exact hoperands y hy
    · obtain ⟨_, -, rfl⟩ := List.mem_map.mp hy
      exact hs.extents_le.1

end RealCall

namespace QuantizedCall

/-- Reads a quantized product and keeps track of the slices. -/
def traced (x : QuantizedCall α B) (kind : IntKind B) : Traced (Decoded α Int8 B Int32) := do
  let mode ← OffsetMode.ofFlag (← x.offsetMode.read "offsetc")
  let extents ← x.shape.extents .s8 kind.elem .s32
  let alpha ← x.alpha.read "alpha"
  let beta ← x.beta.read "beta"
  let zeroA ← x.zeroA.read "ao"
  let zeroB ← x.zeroB.read "bo"
  let a ← x.a.borrow ⟨"A", extents.a, .s8⟩
  let b ← x.b.borrow ⟨"B", extents.b, kind.elem⟩
  let c ← x.c.borrow ⟨"C", extents.c, .s32⟩
  let values ← x.offset.borrow
    ⟨"co", mode.requiredLen extents.shape.m extents.shape.n, .s32⟩
  return {
    request := {
      shape := extents.shape, a, b, alpha, beta
      zeroPoints := ⟨zeroA, zeroB⟩
      offset := some ⟨mode, values⟩ }
    c }

/-- A product wants its operands and the values of its offset. -/
def wanted (kind : IntKind B) (mode : OffsetMode) (s : GemmShape) : List Slice :=
  operandSlices s .s8 kind.elem .s32 ++ [⟨"co", mode.requiredLen s.m s.n, .s32⟩]

/-- The slices that the arguments want, if they stand for a mode and a shape. -/
def Wants (x : QuantizedCall α B) (kind : IntKind B) (slices : List Slice) : Prop :=
  ∃ mode s, x.Mode (.ok mode) ∧ x.shape.Given (.ok s) ∧ slices = wanted kind mode s

variable {x : QuantizedCall α B} {kind : IntKind B}

theorem result_traced (x : QuantizedCall α B) (kind : IntKind B) :
    (x.traced kind).result = x.decode kind := by
  simp only [traced, decode, Traced.result_bind, Traced.result_lift, Pointer.result_borrow]
  rfl

/-- A product with a mode and a shape forms the slices that it wants, and they fit if its buffers
do. -/
theorem traced_forms {mode : OffsetMode} {s : GemmShape} (hmode : x.Mode (.ok mode))
    (hs : x.shape.Given (.ok s))
    (hextents : x.shape.extents .s8 kind.elem .s32 =
      .ok ⟨s, (s.a .s8).requiredLen, (s.b kind.elem).requiredLen, (s.c .s32).requiredLen⟩) :
    (x.traced kind).Forms (wanted kind mode s)
      fun y => (∀ s, x.shape.Given (.ok s) → x.Sound kind s) → y.Fits := by
  refine .lift_bind fun byte hbyte => .lift_bind fun mode' hmode' => ?_
  obtain rfl : mode = mode' :=
    Except.ok.inj (hmode.unique ⟨byte, Pointer.read_eq_ok.mp hbyte, hmode'⟩)
  refine .lift_bind fun extents h => ?_
  obtain rfl := Except.ok.inj (hextents.symm.trans h)
  refine .lift_bind fun alpha _ => .lift_bind fun beta _ => ?_
  refine .lift_bind fun zeroA _ => .lift_bind fun zeroB _ => ?_
  refine Pointer.borrow_bind (fun buffer hbuffer hsound => ?_) fun a => ?_
  · exact (hsound s hs).a.fits hbuffer "A"
  refine Pointer.borrow_bind (fun buffer hbuffer hsound => ?_) fun b => ?_
  · exact (hsound s hs).b.fits hbuffer "B"
  refine Pointer.borrow_bind (fun buffer hbuffer hsound => ?_) fun c => ?_
  · exact (hsound s hs).c.fits hbuffer "C"
  refine Pointer.borrow_bind (fun buffer hbuffer hsound => ?_) fun values => .pure _
  exact ((hsound s hs).offset mode hmode).fits hbuffer "co"

theorem formed (x : QuantizedCall α B) (kind : IntKind B) (s : Session α)
    (entry : Entry α Int8 B Int32) :
    Formed (x.traced kind).slices (x.Wants kind) (∀ s, x.shape.Given (.ok s) → x.Sound kind s)
      (some (s.run x.c (x.decode kind) entry).1.status) := by
  rw [← x.result_traced kind]
  refine Traced.formed (x.result_traced kind ▸ x.decode_blames kind) ?_ ?_ s x.c entry
  · rintro _ _ ⟨mode, s, hmode, hs, rfl⟩ ⟨mode', s', hmode', hs', rfl⟩
    rw [hs.unique hs', Except.ok.inj (hmode.unique hmode')]
  cases hbyte : x.offsetMode.read "offsetc" with
  | error e => exact .inl ⟨e, by rw [traced, hbyte]; rfl⟩
  | ok byte =>
    cases hflag : OffsetMode.ofFlag byte with
    | error e =>
      exact .inl ⟨e, by simp only [traced, hbyte, hflag, Traced.lift_bind_ok]; rfl⟩
    | ok mode =>
      have hmode : x.Mode (.ok mode) := ⟨byte, Pointer.read_eq_ok.mp hbyte, hflag⟩
      cases hextents : x.shape.extents .s8 kind.elem .s32 with
      | error e =>
        exact .inl ⟨e, by simp only [traced, hbyte, hflag, hextents, Traced.lift_bind_ok]; rfl⟩
      | ok extents =>
        obtain ⟨s, hs, rfl, hoperands⟩ := ShapeArguments.extents_eq_ok hextents
        refine .inr ⟨_, ⟨mode, s, hmode, hs, rfl⟩, traced_forms hmode hs hextents, fun y hy => ?_⟩
        rcases List.mem_append.mp hy with hy | hy
        · exact hoperands y hy
        · obtain rfl := List.mem_singleton.mp hy
          exact hs.offset_le mode

end QuantizedCall

end

-- ---------------------------------------------------------------------------
-- The slices of a call
-- ---------------------------------------------------------------------------

section

variable {α : Type}

/-- The slices that a call forms, in order. -/
def Call.slices : Call α → List Slice
  | .sgemm x => (x.plain.traced .f32).slices
  | .sgemmExt x => (x.traced .f32).slices
  | .bf16 x => (x.plain.traced .bf16).slices
  | .s8u8 x => (x.traced .unsigned).slices
  | .s8s8 x => (x.traced .signed).slices
  | .setDump _ | .lastError => []

/-- The slices that the arguments of a call want, if they stand for a product. -/
def Call.Wants : Call α → List Slice → Prop
  | .sgemm x => x.plain.Wants .f32
  | .sgemmExt x => x.Wants .f32
  | .bf16 x => x.plain.Wants .bf16
  | .s8u8 x => x.Wants .unsigned
  | .s8s8 x => x.Wants .signed
  | .setDump _ | .lastError => (· = [])

variable (ar : Arith α)

/-- The status that a product is answered with. -/
def Session.status? (s : Session α) : Call α → Option Status
  | .sgemm x => some (s.sgemm ar x).1.status
  | .sgemmExt x => some (s.sgemmExt ar x).1.status
  | .bf16 x => some (s.bf16 ar x).1.status
  | .s8u8 x => some (s.s8u8 ar x).1.status
  | .s8s8 x => some (s.s8s8 ar x).1.status
  | .setDump _ | .lastError => none

theorem formed_none {sound : Prop} : Formed [] (· = []) sound none where
  shapeless h := absurd rfl (h [])
  order _ h := h ▸ List.nil_prefix
  whole _ h := .inl (by rw [h]; rfl)
  refused _ h x hx := absurd hx (h ▸ List.not_mem_nil)
  counted := by rintro _ ⟨⟩
  fits := by rintro _ ⟨⟩

/-- Whatever a call is given, its slices have at most as many elements as an object has bytes. -/
theorem Call.slices_counted (s : Session α) (call : Call α) :
    Formed call.slices call.Wants call.Sound (s.status? ar call) := by
  cases call with
  | sgemm x => exact x.plain.formed .f32 s _
  | sgemmExt x => exact x.formed .f32 s _
  | bf16 x => exact x.plain.formed .bf16 s _
  | s8u8 x => exact x.formed .unsigned s _
  | s8s8 x => exact x.formed .signed s _
  | setDump _ | lastError => exact formed_none

/-- A column of `2 ^ 61` single-precision numbers, to be multiplied by a null. -/
def longColumn (a : Pointer (Array Single)) : RealCall Single Single where
  shape := {
    transA := some 78, transB := some 78, m := some 0x2000000000000000, n := some 1, k := some 1
    lda := some 0x2000000000000000, ldb := some 1, ldc := some 0x2000000000000000 }
  alpha := some .one
  beta := some .zero
  a := a

/-- The slice has one byte more than an object can have, and the check of the extents lets it pass:
a call without any buffers is not refused before it comes to the first of them. -/
theorem Call.longColumn_exceeds :
    (Call.sgemm (longColumn (some #[.one]))).slices = [⟨"A", 2 ^ 61, .f32⟩] ∧
      ¬ (Slice.mk "A" (2 ^ 61) .f32).Fits ∧
      (longColumn none).decode .f32 = .error (.invalidArguments (.null "A")) :=
  ⟨rfl, by decide, rfl⟩

end

end JitGemm.Foreign
