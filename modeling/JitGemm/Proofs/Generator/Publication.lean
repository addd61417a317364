import JitGemm.Generator.Kernel
import JitGemm.Generator.Vector
import JitGemm.Proofs.Code.Assembly
import JitGemm.Proofs.Generator.Script

/-!
# What comes out of a generator

A program makes any calls on a generator, in any order, and goes on after errors. All that they do
to the code is a sequence of calls on an assembler, so whether a kernel comes out, and else why not,
can be read off that sequence. A kernel is told to the registrar and counted as a dump; an error is
told to nobody.
-/

namespace JitGemm

open Code (Chunk Label Step emitted firstError? firstUnresolved?)

-- ---------------------------------------------------------------------------
-- Programs
-- ---------------------------------------------------------------------------

/-- One call on a generator, without the answer. -/
inductive Operation where
  /-- An instruction for the encoder of the generator's own architecture, or an error. -/
  | emit (e : Emission)
  | scalar (op : ScalarOp)
  | vector (c : VecCall)
  | address (base : Gpr) (offset : Int64)
  | newLabel
  | bind (l : Label)
  | exitLabel
  | preamble (stack : StackSize)
  | postamble
  deriving DecidableEq, Repr

def Operation.apply (g : Generator) : Operation → Generator
  | emit e => g.offer e
  | scalar op => g.scalar op
  | vector c => g.vector c
  | address base offset => (g.offsetAddress base offset).2
  | newLabel => g.newLabel.2
  | bind l => g.bind l
  | exitLabel => g.exitLabel.2
  | preamble stack => (g.preamble stack).2
  | postamble => g.postamble

inductive Program where
  | done
  /-- Goes on as everything so far has it. The labels and addresses that calls answer with are among
  that. -/
  | look (next : Generator → Program)
  | call (o : Operation) (next : Program)
  | frame (stack : StackSize) (body : Frame → Program) (next : Program)

namespace Program

def run : Program → Generator → Generator
  | done, g => g
  | look next, g => (next g).run g
  | call o next, g => next.run (o.apply g)
  | frame stack body next, g => next.run (g.withFrame stack fun f g => (body f).run g)

end Program

-- ---------------------------------------------------------------------------
-- Their calls on the assembler
-- ---------------------------------------------------------------------------

/-- An instruction of either architecture. -/
abbrev AnyInstr : Type := X86.Instr ⊕ Arm64.Instr

def AnyInstr.chunk : AnyInstr → Chunk := Sum.elim X86.Instr.chunk Arm64.Instr.chunk

def Emission.step : Emission → Step AnyInstr
  | x86 i => .emit (.inl i)
  | arm i => .emit (.inr i)
  | fail e => .fail e

def Operation.steps (g : Generator) : Operation → List (Step AnyInstr)
  | emit e => if e.native g.table.target then [e.step] else []
  | scalar op => (g.table.target.scalar op).map Emission.step
  | vector c => (g.table.vector c).map Emission.step
  | address base offset => (g.table.target.offsetAddress base offset).2.map Emission.step
  | newLabel => [.newLabel]
  | bind l => [.bind l]
  | exitLabel =>
    match g.exit with
    | some _ => []
    | none => [.fail (.invalidOperand .exitOutsideFrame), .newLabel]
  | preamble stack =>
    ((Frame.ofStack g.table.target stack).preamble g.table.vex).map Emission.step
  | postamble =>
    match g.frame with
    | some f => (f.postamble g.table.vex).map Emission.step
    | none => [.fail (.invalidOperand .postambleWithoutPreamble)]

def Program.steps : Program → Generator → List (Step AnyInstr)
  | done, _ => []
  | look next, g => (next g).steps g
  | call o next, g => o.steps g ++ next.steps (o.apply g)
  | frame stack body next, g =>
    let (f, scope, opened) := g.enterFrame stack
    let ended := (body f).run opened
    (Operation.preamble stack).steps g ++ [.newLabel] ++ (body f).steps opened ++
      [.bind scope.exit] ++ Operation.postamble.steps ended ++ next.steps (ended.leaveFrame scope)

theorem Generator.buffer_emit (g : Generator) (es : List Emission) :
    (g.emit es).buffer = (es.map Emission.step).foldl (Step.apply AnyInstr.chunk) g.buffer := by
  have hone : Emission.apply = fun b e => e.step.apply AnyInstr.chunk b := by
    funext b e
    cases e <;> rfl
  rw [List.foldl_map, ← hone]
  rfl

theorem Operation.buffer_apply (g : Generator) (o : Operation) :
    (o.apply g).buffer = (o.steps g).foldl (Step.apply AnyInstr.chunk) g.buffer := by
  cases o with
  | emit e =>
    by_cases h : e.native g.table.target
    · simpa [apply, steps, Generator.offer, h] using g.buffer_emit [e]
    · simp [apply, steps, Generator.offer, h]
  | scalar op => exact g.buffer_emit _
  | vector c => exact g.buffer_emit _
  | address base offset => exact g.buffer_emit _
  | newLabel | bind l => rfl
  | exitLabel =>
    simp only [apply, steps, Generator.exitLabel]
    cases g.exit <;> rfl
  | preamble stack => exact g.buffer_emit _
  | postamble =>
    simp only [apply, steps, Generator.postamble]
    cases g.frame with
    | none => rfl
    | some f => exact g.buffer_emit _

theorem Generator.buffer_enterFrame (g : Generator) (stack : StackSize) :
    (g.enterFrame stack).2.2.buffer =
      ((Operation.preamble stack).steps g ++ [Step.newLabel]).foldl (Step.apply AnyInstr.chunk)
        g.buffer := by
  rw [List.foldl_append, ← Operation.buffer_apply]
  rfl

theorem Generator.buffer_leaveFrame (g : Generator) (s : Scope) :
    (g.leaveFrame s).buffer =
      ([Step.bind s.exit] ++ Operation.postamble.steps g).foldl (Step.apply AnyInstr.chunk)
        g.buffer :=
  Operation.buffer_apply { g.bind s.exit with exit := s.outer } .postamble

theorem Program.buffer_run (p : Program) (g : Generator) :
    (p.run g).buffer = (p.steps g).foldl (Step.apply AnyInstr.chunk) g.buffer := by
  induction p generalizing g with
  | done => rfl
  | look next ih => exact ih g g
  | call o next ih => rw [run, ih, steps, List.foldl_append, Operation.buffer_apply]
  | frame stack body next ihBody ih =>
    -- Opening and closing act on the buffer as the steps around the body do.
    simp only [run, steps, ih, Generator.withFrame, Generator.buffer_leaveFrame, ihBody,
      Generator.buffer_enterFrame, List.foldl_append]

/-- What a generator was made with. -/
def Generator.identity (g : Generator) : String × String × OpTable := (g.name, g.origin, g.table)

theorem Operation.identity_apply (g : Generator) (o : Operation) :
    (o.apply g).identity = g.identity := by
  cases o with
  | emit e =>
    simp only [apply, Generator.offer]
    split <;> rfl
  | exitLabel =>
    simp only [apply, Generator.exitLabel]
    split <;> rfl
  | postamble =>
    simp only [apply, Generator.postamble]
    split <;> rfl
  | _ => rfl

theorem Program.identity_run (p : Program) (g : Generator) :
    (p.run g).identity = g.identity := by
  induction p generalizing g with
  | done => rfl
  | look next ih => exact ih g g
  | call o next ih => rw [run, ih, Operation.identity_apply]
  | frame stack body next ihBody ih =>
    have hleave : ∀ (g : Generator) s, (g.leaveFrame s).identity = g.identity := fun g s =>
      Operation.identity_apply { g.bind s.exit with exit := s.outer } .postamble
    rw [run, ih, Generator.withFrame, hleave, ihBody]
    rfl

-- ---------------------------------------------------------------------------
-- Kernels and refusals
-- ---------------------------------------------------------------------------

/-- Why so many bytes are no kernel. -/
def sizeFault? (size capacity : Nat) : Option CodeError :=
  if size = 0 then some .emptyCode
  else if capacity < size then some (.bufferExhausted size capacity)
  else none

/-- Why no kernel comes out of some calls: the first error, else the first branch that leads
nowhere or too far, else the size. -/
def refusal? (steps : List (Step AnyInstr)) (capacity : Nat) : Option CodeError :=
  ((firstError? AnyInstr.chunk steps).or (firstUnresolved? AnyInstr.chunk steps)).or
    (sizeFault? (emitted AnyInstr.chunk steps).length capacity)

theorem AnyInstr.framed_chunk (i : AnyInstr) : i.chunk.Framed := by
  cases i with
  | inl i => exact X86.framed_chunk i
  | inr i => exact Arm64.framed_chunk i

theorem Generator.finish_assembled {g : Generator} {steps : List (Step AnyInstr)}
    (h : g.buffer = Code.assemble AnyInstr.chunk steps) (capacity : Nat) :
    match refusal? steps capacity with
    | some e => g.finish capacity = .error e
    | none => ∃ code, g.buffer.finish = .ok code ∧
        code.size = (emitted AnyInstr.chunk steps).length ∧
        g.finish capacity = .ok ⟨g.name, g.origin, g.table.target, code⟩ := by
  have hfinish := Code.finish_assemble AnyInstr.chunk steps
  rw [← h] at hfinish
  rw [refusal?]
  cases hfault : (firstError? AnyInstr.chunk steps).or (firstUnresolved? AnyInstr.chunk steps) with
  | some e =>
    rw [hfault] at hfinish
    simp [Generator.finish, hfinish]
  | none =>
    rw [hfault] at hfinish
    obtain ⟨code, hcode⟩ := hfinish
    -- Entering distances keeps the size, so what was emitted decides the last two errors.
    have hsize : code.size = (emitted AnyInstr.chunk steps).length := by
      have horderly := Code.orderly_assemble AnyInstr.chunk AnyInstr.framed_chunk steps
      rw [← h] at horderly
      rw [(Code.Buffer.finish_ok horderly hcode).2.1, h, Code.size_assemble]
    have hisEmpty : code.isEmpty = decide (code.size = 0) := rfl
    rw [Option.none_or, ← hsize, sizeFault?]
    by_cases hempty : code.size = 0
    · simp [Generator.finish, hcode, hisEmpty, hempty]
    · by_cases hlarge : capacity < code.size
      · simp [Generator.finish, hcode, hisEmpty, hempty, hlarge]
      · simp [Generator.finish, hcode, hisEmpty, hempty, hlarge]

/-- What a finished kernel leaves in the journal: one registration, and if dumping is on, a dump
number used up, even where no file could be written. -/
structure Journal.Told (j j' : Journal) (dump : DumpPolicy) (k : Kernel) : Prop where
  registered : j'.registered = j.registered.push ⟨k.name, k.size, k.target⟩
  nextDump : j'.nextDump = j.nextDump + if dump.enabled then 1 else 0
  dumps : j'.dumps =
    if dump.enabled ∧ dump.directory ∧ Dump.writable k.name j.nextDump then
      j.dumps.push ⟨k.name, j.nextDump, k.code⟩
    else j.dumps

theorem Journal.told_dump (j : Journal) (dump : DumpPolicy) (k : Kernel) :
    j.Told ((j.register k).dump dump k) dump k := by
  cases henabled : dump.enabled with
  | false => constructor <;> simp [Journal.dump, register, henabled]
  | true => constructor <;> simp [Journal.dump, register, henabled]

/-- Finishing is all or nothing. After any program on a new generator it answers with the first
error in program order, else with the first branch that cannot be resolved, else with code that is
empty or too large, and then the journal is what it was. Only without any of these there is a
kernel: all that was emitted, under the generator's name, told once. -/
theorem publish_program (p : Program) (name origin : String) (table : OpTable)
    (policy : KernelPolicy) (j : Journal) :
    match refusal? (p.steps { name, origin, table }) policy.capacity with
    | some e => (p.run { name, origin, table }).publish policy j = (.error e, j)
    | none => ∃ k j', (p.run { name, origin, table }).publish policy j = (.ok k, j') ∧
        k.name = name ∧ k.origin = origin ∧ k.target = table.target ∧
        (p.run { name, origin, table }).buffer.finish = .ok k.code ∧
        k.size = (emitted AnyInstr.chunk (p.steps { name, origin, table })).length ∧
        j.Told j' policy.dump k := by
  let g : Generator := { name, origin, table }
  have hbuffer : (p.run g).buffer = Code.assemble AnyInstr.chunk (p.steps g) := p.buffer_run g
  have hfinish := Generator.finish_assembled hbuffer policy.capacity
  have hidentity : (p.run g).identity = (name, origin, table) := p.identity_run g
  obtain ⟨hname, hrest⟩ := Prod.mk.inj hidentity
  obtain ⟨horigin, htable⟩ := Prod.mk.inj hrest
  cases hrefusal : refusal? (p.steps g) policy.capacity with
  | some e =>
    rw [hrefusal] at hfinish
    simp only
    rw [Generator.publish, show (p.run g).finish policy.capacity = .error e from hfinish]
  | none =>
    rw [hrefusal] at hfinish
    obtain ⟨code, hcode, hsize, hok⟩ := hfinish
    rw [hname, horigin, htable] at hok
    refine ⟨⟨name, origin, table.target, code⟩, _, ?_, rfl, rfl, rfl, hcode, hsize,
      j.told_dump policy.dump _⟩
    rw [Generator.publish, hok]

/-- An error of a call comes before a branch that was emitted earlier and leads nowhere. -/
example : refusal? (Program.steps (.call (.scalar (.jmp ⟨3⟩)) (.call .exitLabel .done))
    { name := "", origin := "", table := ⟨.sysV, .v256, .full⟩ }) 0 =
      some (.invalidOperand .exitOutsideFrame) := rfl

end JitGemm
