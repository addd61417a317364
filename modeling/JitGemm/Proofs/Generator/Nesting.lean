import JitGemm.Proofs.Generator.Script

/-!
# Nested frames

A generator remembers the frame that was opened last, and the exit point of the innermost open one.
At the end of a body the exit point around it comes back; the frame does not. So a body that opens
no frame is closed by the frame that it was opened with, and any other body by the last frame that
was opened in it, however deep.
-/

namespace JitGemm

open Code (Label)

/-- A frame that a generator opens around a body. -/
structure Call where
  start : Generator
  stack : StackSize
  body : Frame → Script

namespace Script

def lastFrame : Script → Generator → Frame → Frame
  | done, _, f => f
  | look next, g, f => (next g).lastFrame g f
  | emit e next, g, f => next.lastFrame (g.offer e) f
  | newLabel next, g, f => (next g.newLabel.1).lastFrame g.newLabel.2 f
  | bind l next, g, f => next.lastFrame (g.bind l) f
  | exitLabel next, g, f => (next g.exitLabel.1).lastFrame g.exitLabel.2 f
  | frame stack body next, g, _ =>
    let (own, _, inside) := g.enterFrame stack
    next.lastFrame (g.withFrame stack fun f g => (body f).run g)
      ((body own).lastFrame inside own)

end Script

namespace Call

variable (c : Call)

def own : Frame := (c.start.enterFrame c.stack).1

def exit : Label := (c.start.enterFrame c.stack).2.1.exit

def opened : Generator := (c.start.enterFrame c.stack).2.2

def script : Script := c.body c.own

def ended : Generator := c.script.run c.opened

def closed : Generator := c.start.withFrame c.stack fun f g => (c.body f).run g

def last : Frame := c.script.lastFrame c.opened c.own

end Call

-- ---------------------------------------------------------------------------
-- The current frame
-- ---------------------------------------------------------------------------

namespace Generator

@[simp] theorem frame_offer (g : Generator) (e : Emission) : (g.offer e).frame = g.frame := by
  unfold offer
  split <;> rfl

@[simp] theorem frame_exitLabel (g : Generator) : g.exitLabel.2.frame = g.frame := by
  unfold exitLabel
  split <;> rfl

@[simp] theorem frame_leaveFrame (g : Generator) (s : Scope) :
    (g.leaveFrame s).frame = g.frame := by
  unfold leaveFrame postamble
  split <;> rfl

end Generator

theorem Script.frame_run (s : Script) {g : Generator} {f : Frame} (h : g.frame = some f) :
    (s.run g).frame = some (s.lastFrame g f) := by
  induction s generalizing g f with
  | done => exact h
  | look next ih => exact ih g h
  | emit e next ih => exact ih ((Generator.frame_offer g e).trans h)
  | newLabel next ih => exact ih _ (g := g.newLabel.2) h
  | bind l next ih => exact ih (g := g.bind l) h
  | exitLabel next ih => exact ih _ ((Generator.frame_exitLabel g).trans h)
  | frame stack body next ihBody ih =>
    refine ih ?_
    rw [Generator.withFrame, Generator.frame_leaveFrame]
    exact ihBody _ rfl

/-- A body without frames ends in the frame that it was opened with. -/
theorem Script.lastFrame_of_frameFree {s : Script} (h : s.FrameFree) (g : Generator) (f : Frame) :
    s.lastFrame g f = f := by
  induction s generalizing g with
  | done => rfl
  | look next ih => exact ih g (h g) g
  | emit e next ih => exact ih h _
  | newLabel next ih => exact ih _ (h _) _
  | bind l next ih => exact ih h _
  | exitLabel next ih => exact ih _ (h _) _
  | frame stack body next => exact h.elim

@[simp] theorem Frame.target_ofStack (t : Target) (stack : StackSize) :
    (ofStack t stack).target = t := by
  unfold ofStack
  split
  · rfl
  · split <;> rfl

theorem Script.target_lastFrame (s : Script) {g : Generator} {f : Frame}
    (h : f.target = g.table.target) : (s.lastFrame g f).target = g.table.target := by
  induction s generalizing g f with
  | done => exact h
  | look next ih => exact ih g h
  | emit e next ih =>
    have htable := (Generator.keeps_offer g e).table
    exact (ih (h.trans (htable ▸ rfl))).trans (htable ▸ rfl)
  | newLabel next ih => exact ih _ (g := g.newLabel.2) h
  | bind l next ih => exact ih (g := g.bind l) h
  | exitLabel next ih =>
    have htable := (Generator.keeps_exitLabel g).table
    exact (ih _ (h.trans (htable ▸ rfl))).trans (htable ▸ rfl)
  | frame stack body next ihBody ih =>
    have htable : (g.withFrame stack fun f g => (body f).run g).table = g.table :=
      (Generator.keeps_withFrame (fun f g => (keeps_run (body f) g).toGrows) g).table
    have hbody := ihBody (g.enterFrame stack).1 (g := (g.enterFrame stack).2.2)
      (Frame.target_ofStack g.table.target stack)
    exact (ih (hbody.trans (htable ▸ rfl))).trans (htable ▸ rfl)

-- ---------------------------------------------------------------------------
-- Closing a frame
-- ---------------------------------------------------------------------------

/-- The largest reserve that one instruction can say. -/
def Target.maxReserve : Target → Nat
  | .aarch64 => 4095
  | _ => 2147483647

def Frame.Encodable (f : Frame) : Prop := f.reserve ≤ f.target.maxReserve

/-- Instructions that move the stack pointer by a reserve, if there is one, tell it apart from every
other one. -/
theorem release_eq_iff (move : Nat → Emission) {limit n n' : Nat}
    (hmove : ∀ m m', m ≤ limit → m' ≤ limit → move m = move m' → m = m') (h : n ≤ limit)
    (h' : n' ≤ limit) (rest : List Emission) :
    (if n = 0 then [] else [move n]) ++ rest = (if n' = 0 then [] else [move n']) ++ rest ↔
      n = n' := by
  rw [List.append_cancel_right_eq]
  constructor
  · intro heq
    by_cases hn : n = 0 <;> by_cases hn' : n' = 0 <;> simp only [hn, hn', if_pos, if_neg,
      not_false_eq_true, List.cons.injEq, and_true, reduceCtorEq] at heq
    · exact hn.trans hn'.symm
    · exact hmove n n' h h' heq
  · rintro rfl
    rfl

theorem Frame.postamble_eq_iff {f f' : Frame} (htarget : f.target = f'.target)
    (h : f.Encodable) (h' : f'.Encodable) (vex : Bool) :
    f.postamble vex = f'.postamble vex ↔ f.reserve = f'.reserve := by
  rcases f with ⟨t, n⟩
  rcases f' with ⟨t', n'⟩
  obtain rfl : t = t' := htarget
  cases t with
  | aarch64 =>
    replace h : n ≤ 4095 := h
    replace h' : n' ≤ 4095 := h'
    simp only [postamble, Target.isX86, Bool.false_eq_true, if_false, postambleArm,
      List.append_assoc]
    refine release_eq_iff (fun n => .arm (.addImm .sp .sp (UInt32.ofNat n))) ?_ h h' _
    intro m m' hm hm' heq
    simp only [Emission.arm.injEq, Arm64.Instr.addImm.injEq, true_and] at heq
    have hnat := congrArg UInt32.toNat heq
    simp only [UInt32.toNat_ofNat'] at hnat
    omega
  | sysV | win64 =>
    replace h : n ≤ 2147483647 := h
    replace h' : n' ≤ 2147483647 := h'
    simp only [postamble, Target.isX86, if_true, postambleX86, List.append_assoc]
    refine release_eq_iff (fun n => .x86 (.addImm .rsp (Int32.ofNat n))) ?_ h h' _
    intro m m' hm hm' heq
    simp only [Emission.x86.injEq, X86.Instr.addImm.injEq, true_and] at heq
    have hint := congrArg Int32.toInt heq
    rw [Int32.toInt_ofNat_of_lt (by omega), Int32.toInt_ofNat_of_lt (by omega)] at hint
    omega

namespace Call

variable {c : Call}

theorem grows_ended (c : Call) : c.start.Grows c.ended :=
  (Generator.grows_enterFrame _ _).trans (Script.keeps_run _ _).toGrows

theorem grows_closed (c : Call) : c.ended.Grows c.closed := Generator.grows_leaveFrame _ _

theorem target_last (c : Call) : c.last.target = c.own.target :=
  (c.script.target_lastFrame (Frame.target_ofStack _ _)).trans
    (Frame.target_ofStack c.start.table.target c.stack).symm

/-- The exit point of a body stays the same wherever the body is. -/
theorem exitLabel_reached {s : Script} {g : Generator} (h : c.script.Reaches c.opened s g) :
    g.exitLabel = (c.exit, g) := by
  have hexit : g.exit = some c.exit := h.keeps.1.exit
  simp [Generator.exitLabel, hexit]

theorem closed_eq (c : Call) :
    c.closed = { c.ended.bind c.exit with exit := c.start.exit }.emit
      (c.last.postamble c.start.table.vex) := by
  have hframe : c.ended.frame = some c.last := c.script.frame_run rfl
  have htable : c.ended.table = c.start.table := (grows_ended c).table
  unfold closed Generator.withFrame
  show Generator.leaveFrame c.ended ⟨c.exit, c.start.exit⟩ = _
  unfold Generator.leaveFrame Generator.postamble
  have hframe' : ({ c.ended.bind c.exit with exit := c.start.exit } : Generator).frame =
      some c.last := hframe
  rw [hframe', ← htable]
  rfl

/-- Without an error, the exit point of a body lies right before what closes its frame. -/
theorem position_exit (h : c.closed.buffer.error = none) :
    c.closed.buffer.position? c.exit = some c.ended.buffer.bytes.size := by
  have hbound : c.ended.buffer.bind c.exit = (c.ended.bind c.exit).buffer := rfl
  have hrest : ((c.ended.bind c.exit).buffer).Extends c.closed.buffer := by
    rw [closed_eq]
    exact (Generator.keeps_emit _ _).buffer
  exact hrest.labels _ _ (Code.Buffer.position_bind (hrest.error h))

end Call

-- ---------------------------------------------------------------------------
-- Trees of frames
-- ---------------------------------------------------------------------------

/-- The frames that a script opens, at any depth. -/
inductive Script.Calls : Script → Generator → Call → Prop where
  | own {s next : Script} {g g' : Generator} {stack : StackSize} {body : Frame → Script}
      (h : s.Reaches g (.frame stack body next) g') : Calls s g ⟨g', stack, body⟩
  | inner {s : Script} {g : Generator} {c c' : Call} (h : Calls s g c)
      (h' : Calls c.script c.opened c') : Calls s g c'

/-- Whatever a script closes, stays as it was closed. -/
theorem Script.Calls.grows {s : Script} {g : Generator} {c : Call} (h : s.Calls g c) :
    c.closed.Grows (s.run g) := by
  induction h with
  | @own s next g g' stack body h =>
    rw [← h.keeps.2]
    exact (keeps_run next _).toGrows
  | inner _ _ ih ih' => exact ih'.trans ((Call.grows_closed _).trans ih)

/-- What happens to each frame in a tree of frames. Its exit point is the one that its body is told,
and lies, wherever no error is pending, right before what closes the frame. The frame is closed by
the last one that was opened in its body: by itself if none was, and as by itself just where the two
reserve the same. -/
theorem frames_close {s : Script} {g : Generator} {c : Call} (h : s.Calls g c) :
    c.opened.buffer = (c.start.emit (c.own.preamble c.start.table.vex)).newLabel.2.buffer ∧
      c.closed.buffer =
        ({ c.ended with buffer := c.ended.buffer.bind c.exit }.emit
          (c.last.postamble c.start.table.vex)).buffer ∧
      (c.script.FrameFree → c.last = c.own) ∧
      (c.last.Encodable → c.own.Encodable →
        (c.last.postamble c.start.table.vex = c.own.postamble c.start.table.vex ↔
          c.last.reserve = c.own.reserve)) ∧
      (∀ s' p, c.script.Reaches c.opened s' p → p.exitLabel = (c.exit, p)) ∧
      ((s.run g).buffer.error = none →
        (s.run g).buffer.position? c.exit = some c.ended.buffer.bytes.size) := by
  have hgrows := h.grows.buffer
  refine ⟨rfl, ?_, fun hfree => Script.lastFrame_of_frameFree hfree _ _, ?_,
    fun s' p hp => Call.exitLabel_reached hp, fun herror => ?_⟩
  · rw [Call.closed_eq]
    rfl
  · exact fun hlast hown => Frame.postamble_eq_iff (Call.target_last c) hlast hown _
  · exact hgrows.labels _ _ (Call.position_exit (hgrows.error herror))

/-- A frame without working stack around one with some, and nothing else. -/
def nested : Call where
  start := { name := "nested", origin := "", table := ⟨.sysV, .v256, .full⟩ }
  stack := .zero
  body _ := .frame ⟨16, by decide⟩ (fun _ => .done) .done

def nestedScript : Script := .frame nested.stack nested.body .done

theorem nested_calls : nestedScript.Calls nested.start nested := .own (.here _ _)

theorem nested_closes :
    nestedScript.Calls nested.start nested ∧ nested.last.reserve = 24 ∧
      nested.closed.buffer = ({ nested.ended with
        buffer := nested.ended.buffer.bind nested.exit }.emit
          (nested.last.postamble nested.start.table.vex)).buffer ∧
      (nestedScript.run nested.start).buffer.position? nested.exit =
        some nested.ended.buffer.bytes.size := by
  obtain ⟨-, hclosed, -, -, -, hposition⟩ := frames_close nested_calls
  exact ⟨nested_calls, rfl, hclosed, hposition (by decide)⟩

/-- A frame is not always closed by itself: what the inner frame reserved is released twice. -/
theorem nested_releases_twice :
    ¬ ∀ (s : Script) (g : Generator) (c : Call), s.Calls g c →
      c.closed.buffer = ({ c.ended with buffer := c.ended.buffer.bind c.exit }.emit
        (c.own.postamble c.start.table.vex)).buffer := by
  intro h
  have hbytes := congrArg (·.bytes.size) (h nestedScript nested.start nested nested_calls)
  revert hbytes
  decide

end JitGemm
