import JitGemm.Proofs.X86.Operands

/-!
# Bytes in memory

Memory is a byte for each 64-bit address; addresses wrap. A span is so many bytes from an address
on, and what a write leaves alone is everything outside its span.
-/

namespace JitGemm.X86

open Code (word32)

/-- Whether `x` is one of the `n` bytes from `a` on. -/
def Span (a : UInt64) (n : Nat) (x : UInt64) : Prop := (x - a).toNat < n

/-- No byte in both. -/
def Apart (p q : UInt64 → Prop) : Prop := ∀ x, p x → ¬ q x

abbrev Memory := UInt64 → UInt8

/-- Byte `k` of a word, from the low end. -/
def byteOf (w : UInt32) (k : Nat) : UInt8 := (w >>> UInt32.ofNat (8 * k)).toUInt8

namespace Memory

def read32 (m : Memory) (a : UInt64) : UInt32 := word32 (m a) (m (a + 1)) (m (a + 2)) (m (a + 3))

def read64 (m : Memory) (a : UInt64) : UInt64 :=
  (m.read32 a).toUInt64 ||| (m.read32 (a + 4)).toUInt64 <<< 32

def writeWords (m : Memory) (a : UInt64) (n : Nat) (f : Nat → UInt32) : Memory := fun x =>
  let o := (x - a).toNat
  if o < 4 * n then byteOf (f (o / 4)) (o % 4) else m x

def write64 (m : Memory) (a w : UInt64) : Memory :=
  m.writeWords a 2 fun i => if i = 0 then w.toUInt32 else (w >>> 32).toUInt32

end Memory

-- ---------------------------------------------------------------------------
-- Spans
-- ---------------------------------------------------------------------------

theorem Span.mono {a x : UInt64} {m n : Nat} (h : Span a m x) (hmn : m ≤ n) : Span a n x :=
  Nat.lt_of_lt_of_le h hmn

theorem Span.shift {a x : UInt64} {k m n : Nat} (h : Span (a + UInt64.ofNat k) m x)
    (hmn : k + m ≤ n) : Span a n x := by
  unfold Span at *
  have ha := a.toNat_lt
  rw [UInt64.toNat_sub, UInt64.toNat_add, UInt64.toNat_ofNat'] at h
  rw [UInt64.toNat_sub]
  omega

theorem span_offset (a : UInt64) {k n : Nat} (h : k < n) : Span a n (a + UInt64.ofNat k) := by
  unfold Span
  have ha := a.toNat_lt
  rw [UInt64.toNat_sub, UInt64.toNat_add, UInt64.toNat_ofNat']
  omega

theorem Apart.symm {p q : UInt64 → Prop} (h : Apart p q) : Apart q p := fun x hq hp => h x hp hq

theorem Apart.mono {p p' q q' : UInt64 → Prop} (h : Apart p q) (hp : ∀ x, p' x → p x)
    (hq : ∀ x, q' x → q x) : Apart p' q' := fun x hp' hq' => h x (hp x hp') (hq x hq')

theorem offset_sub (a : UInt64) {k : Nat} (h : k < 2 ^ 64) :
    (a + UInt64.ofNat k - a).toNat = k := by
  have ha := a.toNat_lt
  rw [UInt64.toNat_sub, UInt64.toNat_add, UInt64.toNat_ofNat']
  omega

theorem offset_add (a : UInt64) (k l : Nat) :
    a + UInt64.ofNat k + UInt64.ofNat l = a + UInt64.ofNat (k + l) := by
  rw [UInt64.add_assoc, ← UInt64.ofNat_add]

/-- A span that does not wrap. -/
theorem span_bounds {a x : UInt64} {n : Nat} (hn : a.toNat + n ≤ 2 ^ 64) (h : Span a n x) :
    a.toNat ≤ x.toNat ∧ x.toNat < a.toNat + n := by
  unfold Span at h
  have ha := a.toNat_lt
  have hx := x.toNat_lt
  rw [UInt64.toNat_sub] at h
  omega

theorem span_apart (a : UInt64) {k l m n : Nat} (h : k + m ≤ l) (hn : l + n ≤ 2 ^ 64) :
    Apart (Span (a + UInt64.ofNat k) m) (Span (a + UInt64.ofNat l) n) := by
  intro x hx hy
  unfold Span at *
  have ha := a.toNat_lt
  have hb := x.toNat_lt
  rw [UInt64.toNat_sub, UInt64.toNat_add, UInt64.toNat_ofNat'] at hx hy
  omega

theorem span_words {a x : UInt64} {n : Nat} (h : Span a (4 * n) x) :
    ∃ i < n, Span (a + UInt64.ofNat (4 * i)) 4 x := by
  unfold Span at *
  have ha := a.toNat_lt
  rw [UInt64.toNat_sub] at h
  refine ⟨(x - a).toNat / 4, ?_, ?_⟩
  · rw [UInt64.toNat_sub]
    omega
  · have hx := x.toNat_lt
    rw [UInt64.toNat_sub, UInt64.toNat_add, UInt64.toNat_ofNat', UInt64.toNat_sub]
    omega

namespace Memory

variable {m m' : Memory} {a b : UInt64} {n : Nat}

-- ---------------------------------------------------------------------------
-- Reads depend on their span
-- ---------------------------------------------------------------------------

theorem read32_eq (m : Memory) (a : UInt64) :
    m.read32 a = word32 (m (a + UInt64.ofNat 0)) (m (a + UInt64.ofNat 1))
      (m (a + UInt64.ofNat 2)) (m (a + UInt64.ofNat 3)) := by
  simp [read32]

theorem read32_congr (h : ∀ x, Span a 4 x → m x = m' x) : m.read32 a = m'.read32 a := by
  simp only [read32_eq]
  congr 1 <;> exact h _ (span_offset a (by decide))

theorem read64_congr (h : ∀ x, Span a 8 x → m x = m' x) : m.read64 a = m'.read64 a := by
  unfold read64
  congr 2
  · exact read32_congr fun x hx => h x (hx.mono (by decide))
  · congr 1
    refine read32_congr fun x hx => h x (Span.shift (k := 4) ?_ (by decide : 4 + 4 ≤ 8))
    simpa using hx

-- ---------------------------------------------------------------------------
-- Reads after writes
-- ---------------------------------------------------------------------------

theorem writeWords_outside {f : Nat → UInt32} {x : UInt64} (h : ¬ Span a (4 * n) x) :
    m.writeWords a n f x = m x := by
  unfold Span at h
  simp [writeWords, h]

theorem write64_outside {w x : UInt64} (h : ¬ Span a 8 x) : m.write64 a w x = m x :=
  writeWords_outside h

theorem writeWords_congr {f g : Nat → UInt32} (h : ∀ i < n, f i = g i) :
    m.writeWords a n f = m.writeWords a n g := by
  funext x
  by_cases hx : (x - a).toNat < 4 * n
  · simp [writeWords, hx, h ((x - a).toNat / 4) (by omega)]
  · simp [writeWords, hx]

theorem word32_byteOf (w : UInt32) :
    word32 (byteOf w 0) (byteOf w 1) (byteOf w 2) (byteOf w 3) = w := by
  simp [byteOf]

theorem read32_writeWords {f : Nat → UInt32} {i : Nat} (hi : i < n) (hn : 4 * n ≤ 2 ^ 64) :
    (m.writeWords a n f).read32 (a + UInt64.ofNat (4 * i)) = f i := by
  have hbyte : ∀ k < 4, m.writeWords a n f (a + UInt64.ofNat (4 * i) + UInt64.ofNat k) =
      byteOf (f i) k := by
    intro k hk
    have hoff : 4 * i + k < 4 * n := by omega
    have hdiv : (4 * i + k) / 4 = i := by omega
    have hmod : (4 * i + k) % 4 = k := by omega
    rw [offset_add]
    simp only [writeWords, offset_sub a (Nat.lt_of_lt_of_le hoff hn), hoff, hdiv, hmod, ↓reduceIte]
  rw [read32_eq, hbyte 0 (by decide), hbyte 1 (by decide), hbyte 2 (by decide),
    hbyte 3 (by decide), word32_byteOf]

theorem read32_writeWords_apart {f : Nat → UInt32} (h : Apart (Span a (4 * n)) (Span b 4)) :
    (m.writeWords a n f).read32 b = m.read32 b :=
  read32_congr fun x hx => writeWords_outside fun hx' => h x hx' hx

theorem read64_write64 (m : Memory) (a w : UInt64) : (m.write64 a w).read64 a = w := by
  unfold read64 write64
  have hlow := read32_writeWords (m := m) (a := a) (n := 2) (i := 0)
    (f := fun i => if i = 0 then w.toUInt32 else (w >>> 32).toUInt32) (by decide) (by decide)
  have hhigh := read32_writeWords (m := m) (a := a) (n := 2) (i := 1)
    (f := fun i => if i = 0 then w.toUInt32 else (w >>> 32).toUInt32) (by decide) (by decide)
  simp only [Nat.mul_zero, Nat.mul_one, UInt64.reduceOfNat, UInt64.add_zero, ↓reduceIte,
    Nat.one_ne_zero] at hlow hhigh
  rw [hlow, hhigh, word64_halves]

theorem read64_write64_apart {w : UInt64} (h : Apart (Span a 8) (Span b 8)) :
    (m.write64 a w).read64 b = m.read64 b :=
  read64_congr fun x hx => write64_outside fun hx' => h x hx' hx

end Memory

end JitGemm.X86
