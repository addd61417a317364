import JitGemm.Proofs.Gemm.PackingResult

/-!
# Layout of packed operands

A packed operand is one buffer: A tile after tile, and a tile of A, like a panel of B, step after
step. Packing ends in that buffer exactly if it is one that an object can be. A length that is cut
to 64 bits gives a fault, or a buffer that is too short.
-/

namespace JitGemm

-- ---------------------------------------------------------------------------
-- Operands in long enough buffers
-- ---------------------------------------------------------------------------

namespace Matrix

/-- Whether a buffer of `length` elements is long enough for the operand, which has some. -/
structure Stored (x : Matrix) (length : Nat) : Prop where
  rows : 0 < x.rows
  cols : 0 < x.cols
  extent : x.extent ≤ length
  word : length < Size.modulus

def element? {A : Type} (x : Matrix) (xs : Array A) (r c : Nat) : Option A :=
  xs[x.exactIndex r c]?

theorem Stored.lookup? {A V : Type} {x : Matrix} {xs : Array A} (h : x.Stored xs.size)
    (convert : A → V) {r c : Nat} (hr : r < x.rows) (hc : c < x.cols) :
    (Operand.of x xs convert).lookup? r c = (x.element? xs r c).map convert := by
  have hlt := Nat.lt_of_lt_of_le (exactIndex_lt_extent hr hc) h.extent
  rw [Operand.lookup?, Operand.of, index_eq_of_lt (Nat.lt_trans hlt h.word)]
  rfl

theorem Stored.defined {A V : Type} {x : Matrix} {xs : Array A} (h : x.Stored xs.size)
    (convert : A → V) : (Operand.of x xs convert).Defined := by
  intro r (hr : r < x.rows) c (hc : c < x.cols)
  have hlt := Nat.lt_of_lt_of_le (exactIndex_lt_extent hr hc) h.extent
  rw [h.lookup? convert hr hc, element?, Array.getElem?_eq_getElem hlt]
  rfl

theorem Stored.some_value {A V : Type} {x : Matrix} {xs : Array A} (h : x.Stored xs.size)
    (convert : A → V) (zero : V) {r c : Nat} (hr : r < x.rows) (hc : c < x.cols) :
    some ((Operand.of x xs convert).value zero r c) = (x.element? xs r c).map convert := by
  obtain ⟨v, hv⟩ := Option.isSome_iff_exists.mp (h.defined convert r hr c hc)
  rw [← h.lookup? convert hr hc, Operand.value, hv, Option.getD_some]

end Matrix

namespace Packing

-- ---------------------------------------------------------------------------
-- Lengths
-- ---------------------------------------------------------------------------

section

variable {V γ : Type} {zero : V} {x : Operand V} {mr nr : Nat}

theorem keeps_copySteps (piece : Panel) (steps width lanes : Nat)
    {entry : Nat → Nat → Run V V} (h : ∀ p i, (entry p i).Keeps Array.size) :
    (copySteps piece steps width lanes entry).Keeps Array.size :=
  .forM fun p _ => .forM fun i _ => (h p i).bind fun v =>
    (Panel.keeps_cell piece _).bind fun _ => Run.keeps_write (fun c v => by simp) v

theorem keeps_fillA : (fillA x mr).Keeps Array.size := by
  refine Run.Keeps.bind (Run.keeps_get) fun size => ?_
  simp only
  split
  · exact Run.keeps_throw _
  · exact .forM fun t _ => keeps_copySteps _ _ _ _ fun p i => x.keeps_entry _ _

theorem keeps_fillB {j0 nb : Nat} : (fillB x j0 nb nr).Keeps Array.size :=
  Run.Keeps.bind Run.keeps_get fun _ => keeps_copySteps _ _ _ _ fun _ _ => x.keeps_entry _ _

/-- A buffer that was filled has the length that was asked for, as far as a word has it. -/
theorem size_filled {length : Nat} {work : Run V Unit} {packed : Array V} {c : Array γ}
    (hwork : work.Keeps Array.size)
    (h : (Run.zeros zero length >>= fun buffer => Run.onBuffer buffer work).run c =
      .ok packed c) : packed.size = Size.wrap length ∧ Run.BufferFits (Size.wrap length) := by
  have hends : Run.Ends (Run.zeros zero length >>= fun buffer => Run.onBuffer buffer work) c :=
    ⟨_, _, h⟩
  have hfits := hends.bind.1.zeros
  rw [Run.zeros_wrap hfits, pure_bind, Run.onBuffer] at h
  split at h
  · rename_i filled hfilled
    cases h
    have hsize := hwork (Array.replicate (Size.wrap length) zero)
    rw [Run.left_of_ok hfilled, Array.size_replicate] at hsize
    exact ⟨hsize, hfits⟩
  · cases h

end

-- ---------------------------------------------------------------------------
-- Faithful copies
-- ---------------------------------------------------------------------------

section

variable {A V : Type} (x : Matrix) (xs : Array A) (convert : A → V) (zero : V)

/-- What is asked of a packed A: that packing ends with this buffer, where it has which element,
and that it is cut back into one piece per tile. -/
structure PacksA (mr : Nat) (packed : Array V) : Prop where
  run : ∀ γ : Type, (packA zero (.of x xs convert) mr : Run γ (Array V)) = pure packed
  size : packed.size = (x.rows ⌈/⌉ mr) * x.cols * mr
  entry : ∀ t < x.rows ⌈/⌉ mr, ∀ p < x.cols, ∀ i < mr,
    packed[t * x.cols * mr + p * mr + i]? =
      if t * mr + i < x.rows then (x.element? xs (t * mr + i) p).map convert else some zero
  pieces : ∃ tiles : List (Array V),
    (∀ γ : Type, (cutTiles packed x.cols mr : Run γ (List (Array V))) = pure tiles) ∧
      tiles.length = x.rows ⌈/⌉ mr ∧ (∀ tile ∈ tiles, tile.size = x.cols * mr) ∧
      joined tiles = packed

structure PacksB (j0 nb nr : Nat) (panel : Array V) : Prop where
  run : ∀ γ : Type, (packB zero (.of x xs convert) j0 nb nr : Run γ (Array V)) = pure panel
  size : panel.size = x.rows * nr
  entry : ∀ p < x.rows, ∀ j < nr, panel[p * nr + j]? =
    if j < nb then (x.element? xs p (j0 + j)).map convert else some zero

variable {x xs convert zero}

theorem packsA (h : x.Stored xs.size) {mr : Nat} (hmr : 0 < mr)
    (hfits : Run.BufferFits ((x.rows ⌈/⌉ mr) * x.cols * mr)) :
    PacksA x xs convert zero mr (joined (tiles zero (.of x xs convert) mr)) where
  run γ := packA_eq (h.defined convert) hmr h.rows h.cols (Size.ceilDiv_eq hmr ▸ hfits)
  size := by
    rw [size_joined, ← Size.ceilDiv_eq hmr, Nat.mul_assoc]
    rfl
  entry t ht p hp i hi := by
    rw [← Size.ceilDiv_eq hmr] at ht
    rw [Nat.mul_assoc, Nat.add_assoc]
    refine (getElem?_joined ht hp hi).trans ?_
    rw [rowEntry, apply_ite some]
    exact if_ctx_congr .rfl (fun hrow => h.some_value convert zero hrow hp) fun _ => rfl
  pieces := by
    refine ⟨_, fun γ => cutTiles_eq hmr h.rows h.cols (Size.ceilDiv_eq hmr ▸ hfits), ?_, ?_, rfl⟩
    · rw [length_tiles, ← Size.ceilDiv_eq hmr]
      rfl
    · intro tile htile
      obtain ⟨t, -, rfl⟩ := List.mem_map.mp htile
      rw [List.size_toArray, length_table]
      rfl

theorem packsB (h : x.Stored xs.size) {j0 nb nr : Nat} (hnb : nb ≤ nr) (hj : j0 + nb ≤ x.cols)
    (hfits : Run.BufferFits (x.rows * nr)) :
    PacksB x xs convert zero j0 nb nr
      (table x.rows nr (columnEntry zero (.of x xs convert) j0 nb)).toArray where
  run γ := packB_eq (h.defined convert) hj hnb hfits
  size := by rw [List.size_toArray, length_table]
  entry p hp j hj' := by
    rw [List.getElem?_toArray, getElem?_table hp hj', columnEntry, apply_ite some]
    exact if_ctx_congr .rfl (fun hin => h.some_value convert zero hp (by omega)) fun _ => rfl

theorem PacksA.fits {mr : Nat} {packed : Array V} (h : PacksA x xs convert zero mr packed) :
    Run.BufferFits ((x.rows ⌈/⌉ mr) * x.cols * mr) := by
  have hrun := congrArg (fun run : Run Unit (Array V) => run.run #[]) (h.run Unit)
  obtain ⟨hsize, hfits⟩ := size_filled keeps_fillA hrun
  rwa [← hsize, h.size] at hfits

theorem PacksB.fits {j0 nb nr : Nat} {panel : Array V}
    (h : PacksB x xs convert zero j0 nb nr panel) : Run.BufferFits (x.rows * nr) := by
  have hrun := congrArg (fun run : Run Unit (Array V) => run.run #[]) (h.run Unit)
  obtain ⟨hsize, hfits⟩ := size_filled keeps_fillB hrun
  rwa [← hsize, h.size] at hfits

variable (convert zero)

/-- Packing an operand from a buffer that is long enough gives every element its place, converted,
and zero to every place past its edge, as long as the packed values are no more than one object
has. Otherwise it gives no such buffer. -/
theorem packed_faithfully (h : x.Stored xs.size) {mr j0 nb nr : Nat} (hmr : 0 < mr)
    (hnb : nb ≤ nr) (hj : j0 + nb ≤ x.cols) :
    (Run.BufferFits ((x.rows ⌈/⌉ mr) * x.cols * mr) ↔
        ∃ packed, PacksA x xs convert zero mr packed) ∧
      (Run.BufferFits (x.rows * nr) ↔ ∃ panel, PacksB x xs convert zero j0 nb nr panel) :=
  ⟨⟨fun hfits => ⟨_, packsA h hmr hfits⟩, fun ⟨_, hpacks⟩ => hpacks.fits⟩,
    fun hfits => ⟨_, packsB h hnb hj hfits⟩, fun ⟨_, hpacks⟩ => hpacks.fits⟩

end

/-- Three rows of two, stored as columns of two with two places to spare after each. -/
def storedRows : Array Nat := #[1, 2, 0, 0, 3, 4, 0, 0, 5, 6]

theorem storedRows_packed :
    PacksA ⟨.trans, 3, 2, 4, .s8⟩ storedRows (10 * ·) 0 2 #[10, 30, 20, 40, 50, 0, 60, 0] ∧
      PacksB ⟨.trans, 3, 2, 4, .s8⟩ storedRows (10 * ·) 0 1 1 2 #[20, 0, 40, 0, 60, 0] := by
  have hstored : Matrix.Stored ⟨.trans, 3, 2, 4, .s8⟩ storedRows.size := by
    constructor <;> decide
  obtain ⟨hA, hB⟩ := packed_faithfully (fun n : Nat => 10 * n) 0 hstored
    (show 0 < 2 by decide) (show 1 ≤ 2 by decide) (show 1 + 1 ≤ 2 by decide)
  obtain ⟨packed, hpacked⟩ := hA.mp (by decide)
  obtain ⟨panel, hpanel⟩ := hB.mp (by decide)
  have hrunA : (packA 0 (.of ⟨.trans, 3, 2, 4, .s8⟩ storedRows (10 * ·)) 2 :
      Run Unit (Array Nat)).run #[] = .ok #[10, 30, 20, 40, 50, 0, 60, 0] #[] := rfl
  have hrunB : (packB 0 (.of ⟨.trans, 3, 2, 4, .s8⟩ storedRows (10 * ·)) 1 1 2 :
      Run Unit (Array Nat)).run #[] = .ok #[20, 0, 40, 0, 60, 0] #[] := rfl
  rw [hpacked.run Unit] at hrunA
  rw [hpanel.run Unit] at hrunB
  obtain ⟨rfl, -⟩ := EStateM.Result.ok.inj hrunA
  obtain ⟨rfl, -⟩ := EStateM.Result.ok.inj hrunB
  exact ⟨hpacked, hpanel⟩

end Packing

end JitGemm
