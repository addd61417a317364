import JitGemm.Generator.Framing
import JitGemm.Proofs.Code.Growth

/-!
# Scripts

A body that is handed to a generator is a program: it emits, asks for labels and binds them, and
opens frames around bodies of its own. What it does next may depend on every answer and on
everything that the generator is by then. Instructions reach the encoder of the generator's own
architecture; those of the other one are passed over. Whatever a script does, code is only added,
and the table and the exit point around it are the same afterwards.
-/

namespace JitGemm

open Code (Buffer Label)

-- ---------------------------------------------------------------------------
-- Growing generators
-- ---------------------------------------------------------------------------

theorem X86.framed_chunk (i : X86.Instr) : i.chunk.Framed := by
  cases i with
  | jmp l | jcc cc l =>
    rintro br ⟨⟩
    exact Nat.le_refl _
  | load | store | lea | sse | vex | evex =>
    exact Code.Chunk.framed_of_none (Code.Chunk.branch_ofExcept _)
  | _ => exact Code.Chunk.framed_of_none rfl

theorem Arm64.framed_chunk (i : Arm64.Instr) : i.chunk.Framed := by
  cases i with
  | b l | bCond cc l | cbz t l | cbnz t l =>
    rintro br ⟨⟩
    exact Nat.le_refl _
  | _ => exact Code.Chunk.framed_of_none rfl

namespace Emission

/-- Whether an emission is for the encoder of a target. -/
def native (t : Target) : Emission → Bool
  | x86 _ => t.isX86
  | arm _ => !t.isX86
  | fail _ => true

theorem extends_apply (b : Buffer) (e : Emission) : b.Extends (e.apply b) := by
  cases e with
  | x86 i => exact b.extends_put i.chunk
  | arm i => exact b.extends_put i.chunk
  | fail e => exact b.extends_fail e

theorem orderly_apply {b : Buffer} (h : b.Orderly) (e : Emission) : (e.apply b).Orderly := by
  cases e with
  | x86 i => exact h.put (X86.framed_chunk i)
  | arm i => exact h.put (Arm64.framed_chunk i)
  | fail e => exact h.fail e

end Emission

namespace Generator

/-- More code, by the same rules. -/
structure Grows (g g' : Generator) : Prop where
  table : g'.table = g.table
  buffer : g.buffer.Extends g'.buffer
  orderly : g.buffer.Orderly → g'.buffer.Orderly

/-- Growth inside one body, whose exit point stays. -/
structure Keeps (g g' : Generator) : Prop extends Grows g g' where
  exit : g'.exit = g.exit

variable {g g' g'' : Generator}

theorem Grows.trans (h : g.Grows g') (h' : g'.Grows g'') : g.Grows g'' where
  table := h'.table.trans h.table
  buffer := h.buffer.trans h'.buffer
  orderly hg := h'.orderly (h.orderly hg)

theorem Keeps.refl (g : Generator) : g.Keeps g := ⟨⟨rfl, .refl _, id⟩, rfl⟩

theorem Keeps.trans (h : g.Keeps g') (h' : g'.Keeps g'') : g.Keeps g'' :=
  ⟨h.toGrows.trans h'.toGrows, h'.exit.trans h.exit⟩

theorem keeps_emit (g : Generator) (es : List Emission) : g.Keeps (g.emit es) := by
  induction es generalizing g with
  | nil => exact .refl g
  | cons e es ih =>
    have hfirst : g.Keeps (g.emit [e]) :=
      ⟨⟨rfl, e.extends_apply g.buffer, fun h => Emission.orderly_apply h e⟩, rfl⟩
    exact hfirst.trans (ih (g.emit [e]))

/-- One emission, if the generator has the encoder for it. -/
def offer (g : Generator) (e : Emission) : Generator :=
  if e.native g.table.target then g.emit [e] else g

theorem keeps_offer (g : Generator) (e : Emission) : g.Keeps (g.offer e) := by
  unfold offer
  split
  · exact keeps_emit g [e]
  · exact .refl g

theorem keeps_newLabel (g : Generator) : g.Keeps g.newLabel.2 :=
  ⟨⟨rfl, g.buffer.extends_newLabel, fun h => h.newLabel⟩, rfl⟩

theorem keeps_bind (g : Generator) (l : Label) : g.Keeps (g.bind l) :=
  ⟨⟨rfl, g.buffer.extends_bind l, fun h => h.bind l⟩, rfl⟩

theorem keeps_exitLabel (g : Generator) : g.Keeps g.exitLabel.2 := by
  unfold exitLabel
  split
  · exact .refl g
  · have hfail : g.Keeps (g.fail (.invalidOperand .exitOutsideFrame)) :=
      ⟨⟨rfl, g.buffer.extends_fail _, fun h => h.fail _⟩, rfl⟩
    exact hfail.trans (keeps_newLabel _)

theorem grows_enterFrame (g : Generator) (stack : StackSize) :
    g.Grows (g.enterFrame stack).2.2 := by
  have hemit := keeps_emit g ((Frame.ofStack g.table.target stack).preamble g.table.vex)
  have hlabel := hemit.trans (keeps_newLabel _)
  exact ⟨hlabel.table, hlabel.buffer, hlabel.orderly⟩

theorem grows_postamble (g : Generator) : g.Keeps g.postamble := by
  unfold postamble
  split
  · exact keeps_emit g _
  · exact ⟨⟨rfl, g.buffer.extends_fail _, fun h => h.fail _⟩, rfl⟩

theorem grows_leaveFrame (g : Generator) (s : Scope) : g.Grows (g.leaveFrame s) := by
  have hbind := keeps_bind g s.exit
  have hend := grows_postamble { g.bind s.exit with exit := s.outer }
  exact ⟨hend.table.trans hbind.table, hbind.buffer.trans hend.buffer,
    fun h => hend.orderly (hbind.orderly h)⟩

theorem exit_leaveFrame (g : Generator) (s : Scope) : (g.leaveFrame s).exit = s.outer :=
  (grows_postamble _).exit

/-- A frame around a body that grows gives back the exit point around it. -/
theorem keeps_withFrame {stack : StackSize} {body : Frame → Generator → Generator}
    (h : ∀ f g, (g : Generator).Grows (body f g)) (g : Generator) :
    g.Keeps (g.withFrame stack body) :=
  ⟨(grows_enterFrame g stack).trans ((h _ _).trans (grows_leaveFrame _ _)), exit_leaveFrame _ _⟩

end Generator

-- ---------------------------------------------------------------------------
-- Scripts
-- ---------------------------------------------------------------------------

inductive Script where
  | done
  /-- Goes on as everything so far has it. -/
  | look (next : Generator → Script)
  | emit (e : Emission) (next : Script)
  | newLabel (next : Label → Script)
  | bind (l : Label) (next : Script)
  | exitLabel (next : Label → Script)
  | frame (stack : StackSize) (body : Frame → Script) (next : Script)

namespace Script

def run : Script → Generator → Generator
  | done, g => g
  | look next, g => (next g).run g
  | emit e next, g => next.run (g.offer e)
  | newLabel next, g => (next g.newLabel.1).run g.newLabel.2
  | bind l next, g => next.run (g.bind l)
  | exitLabel next, g => (next g.exitLabel.1).run g.exitLabel.2
  | frame stack body next, g => next.run (g.withFrame stack fun f g => (body f).run g)

theorem keeps_run (s : Script) (g : Generator) : g.Keeps (s.run g) := by
  induction s generalizing g with
  | done => exact .refl g
  | look next ih => exact ih g g
  | emit e next ih => exact (Generator.keeps_offer g e).trans (ih _)
  | newLabel next ih => exact (Generator.keeps_newLabel g).trans (ih _ _)
  | bind l next ih => exact (Generator.keeps_bind g l).trans (ih _)
  | exitLabel next ih => exact (Generator.keeps_exitLabel g).trans (ih _ _)
  | frame stack body next ihBody ih =>
    exact (Generator.keeps_withFrame (fun f g => (ihBody f g).toGrows) g).trans (ih _)

def FrameFree : Script → Prop
  | done => True
  | look next => ∀ g, (next g).FrameFree
  | emit _ next => next.FrameFree
  | newLabel next => ∀ l, (next l).FrameFree
  | bind _ next => next.FrameFree
  | exitLabel next => ∀ l, (next l).FrameFree
  | frame .. => False

-- ---------------------------------------------------------------------------
-- One call after the other
-- ---------------------------------------------------------------------------

def step : Script → Generator → Option (Script × Generator)
  | done, _ => none
  | look next, g => some (next g, g)
  | emit e next, g => some (next, g.offer e)
  | newLabel next, g => some (next g.newLabel.1, g.newLabel.2)
  | bind l next, g => some (next, g.bind l)
  | exitLabel next, g => some (next g.exitLabel.1, g.exitLabel.2)
  | frame stack body next, g => some (next, g.withFrame stack fun f g => (body f).run g)

/-- What a script comes to between its own calls. -/
inductive Reaches : Script → Generator → Script → Generator → Prop where
  | here (s : Script) (g : Generator) : Reaches s g s g
  | step {s s' s'' : Script} {g g' g'' : Generator} (h : s.step g = some (s', g'))
      (hr : Reaches s' g' s'' g'') : Reaches s g s'' g''

variable {s s' : Script} {g g' : Generator}

theorem run_step (h : s.step g = some (s', g')) : s'.run g' = s.run g := by
  cases s with
  | done => cases h
  | _ => cases h; rfl

theorem keeps_step (h : s.step g = some (s', g')) : g.Keeps g' := by
  cases s with
  | done => cases h
  | look next => cases h; exact .refl g
  | emit e next => cases h; exact Generator.keeps_offer g e
  | newLabel next => cases h; exact Generator.keeps_newLabel g
  | bind l next => cases h; exact Generator.keeps_bind g l
  | exitLabel next => cases h; exact Generator.keeps_exitLabel g
  | frame stack body next =>
    cases h
    exact Generator.keeps_withFrame (fun f g => (keeps_run (body f) g).toGrows) g

/-- Wherever a script is, it has kept what was there and will go on to its end. -/
theorem Reaches.keeps (h : Reaches s g s' g') : g.Keeps g' ∧ s'.run g' = s.run g := by
  induction h with
  | here s g => exact ⟨.refl g, rfl⟩
  | step hs _ ih => exact ⟨(keeps_step hs).trans ih.1, ih.2.trans (run_step hs)⟩

end Script

end JitGemm
