import JitGemm.Proofs.Arm64.Decode
import JitGemm.Proofs.Generator.Layout
import JitGemm.Proofs.X86.Stream

/-!
# Fetching code

Code is fetched from the front, instruction by instruction, up to its last byte. What an instruction
does is left to a step on states of any kind; code without branches carries a state through the
steps of its instructions.
-/

namespace JitGemm

open Code (le32 word32 word32_le32)

-- ---------------------------------------------------------------------------
-- Fetching
-- ---------------------------------------------------------------------------

/-- One instruction as it comes off the front of the code. -/
inductive Fetched where
  | x86 (op : X86.Op)
  /-- A word of AArch64, which is taken apart where it is carried out. -/
  | word (w : UInt32)
  deriving DecidableEq, Repr

namespace Target

def fetch (t : Target) (code : List UInt8) : Option (Fetched × List UInt8) :=
  if t.isX86 then (X86.decode X86.architecture code).map fun (op, rest) => (.x86 op, rest)
  else
    match code with
    | a :: b :: c :: d :: rest => some (.word (word32 a b c d), rest)
    | _ => none

/-- The instructions of a stretch of code, to its last byte. -/
def fetchAll? (t : Target) (code : List UInt8) : Option (List Fetched) :=
  X86.readAll (fun _ => t.fetch) 0 code

/-- Code that is fetched as the instructions `is`, whatever follows it. -/
def Fetches (t : Target) (code : List UInt8) (is : List Fetched) : Prop :=
  ∀ n rest, X86.readAll (fun _ => t.fetch) n (code ++ rest) =
    (X86.readAll (fun _ => t.fetch) (n + is.length) rest).map (is ++ ·)

variable {t : Target} {code code' : List UInt8} {is is' : List Fetched}

theorem fetch_nil : t.fetch [] = none := by
  cases t <;> rfl

theorem Fetches.nil : t.Fetches [] [] := fun _ _ => by simp

theorem Fetches.append (h : t.Fetches code is) (h' : t.Fetches code' is') :
    t.Fetches (code ++ code') (is ++ is') := fun _ _ => by
  rw [List.append_assoc, h, h', Option.map_map, List.length_append, ← Nat.add_assoc]
  simp only [Function.comp_def, List.append_assoc]

theorem Fetches.single {i : Fetched} (h : ∀ rest, t.fetch (code ++ rest) = some (i, rest)) :
    t.Fetches code [i] := fun _ _ => X86.readAll_append fetch_nil h

theorem Fetches.fetchAll (h : t.Fetches code is) : t.fetchAll? code = some is := by
  have hall := h 0 []
  rwa [List.append_nil, X86.readAll_nil, Option.map_some, List.append_nil] at hall

theorem fetches_x86 (ht : t.isX86) {i : X86.Instr} (hi : (Emission.x86 i).Decodes) :
    t.Fetches i.chunk.bytes [.x86 (.plain i.canonical)] :=
  .single fun _ => by simp only [fetch, ht, if_true, X86.decode_emission hi, Option.map_some]

theorem fetches_word (ht : t.isX86 = false) (w : UInt32) : t.Fetches (le32 w) [.word w] :=
  .single fun _ => by simp [fetch, ht, le32]

-- ---------------------------------------------------------------------------
-- Straight-line code
-- ---------------------------------------------------------------------------

section

variable {σ : Type} (step? : σ → Fetched → Option σ)

/-- What the instructions of a stretch of code make of a state. -/
def run? (t : Target) (code : List UInt8) (s : σ) : Option σ :=
  (t.fetchAll? code).bind fun is => is.foldlM step? s

/-- Code that takes `s` to `s'`, whatever follows it. -/
def Carries (t : Target) (code : List UInt8) (s s' : σ) : Prop :=
  ∃ is, t.Fetches code is ∧ is.foldlM step? s = some s'

variable {step?} {s s' s'' : σ}

theorem Carries.nil : t.Carries step? [] s s := ⟨[], .nil, rfl⟩

theorem Carries.append (h : t.Carries step? code s s') (h' : t.Carries step? code' s' s'') :
    t.Carries step? (code ++ code') s s'' := by
  obtain ⟨is, hfetch, hrun⟩ := h
  obtain ⟨is', hfetch', hrun'⟩ := h'
  refine ⟨is ++ is', hfetch.append hfetch', ?_⟩
  rw [List.foldlM_append, hrun]
  exact hrun'

theorem Carries.one {i : Fetched} (hfetch : t.Fetches code [i]) (h : step? s i = some s') :
    t.Carries step? code s s' := ⟨[i], hfetch, by simp [h]⟩

theorem Carries.run (h : t.Carries step? code s s') : t.run? step? code s = some s' := by
  obtain ⟨is, hfetch, hrun⟩ := h
  rw [run?, hfetch.fetchAll, Option.bind_some, hrun]

end

end Target

-- ---------------------------------------------------------------------------
-- Emitted code
-- ---------------------------------------------------------------------------

theorem bytes_foldl_apply (es : List Emission) (b : Code.Buffer) :
    (es.foldl Emission.apply b).bytes.toList = b.bytes.toList ++ blockBytes es := by
  induction es generalizing b with
  | nil => simp
  | cons e es ih =>
    rw [List.foldl_cons, ih, blockBytes_cons, ← List.append_assoc]
    cases e <;> simp [Emission.apply, Emission.bytes]

theorem Generator.bytes_emit (g : Generator) (es : List Emission) :
    (g.emit es).buffer.bytes.toList = g.buffer.bytes.toList ++ blockBytes es :=
  bytes_foldl_apply es g.buffer

/-- Emissions without a fault leave what is pending as it is. -/
theorem Generator.error_emit (g : Generator) {es : List Emission} (hes : ∀ e ∈ es, e.Clean) :
    (g.emit es).buffer.error = g.buffer.error := by
  suffices h : ∀ b : Code.Buffer, (es.foldl Emission.apply b).error = b.error from h g.buffer
  induction es with
  | nil => exact fun b => rfl
  | cons e es ih =>
    intro b
    rw [List.foldl_cons, ih fun e he => hes e (List.mem_cons_of_mem _ he)]
    have hclean := hes e List.mem_cons_self
    cases e with
    | x86 i | arm i =>
      have hfault : i.chunk.fault = none := hclean
      simp [Emission.apply, Code.Buffer.put, hfault]
    | fail e => exact hclean.elim

end JitGemm
