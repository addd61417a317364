import JitGemm.Dispatch.Dispatcher
import JitGemm.Foreign.Argument

/-!
# Foreign entry points

All foreign calls run on one dispatcher. A call that fails answers with a status other than success
and leaves a message, which the caller takes at most once. A call that succeeds leaves the pending
message as it was. Only one thread is looked at: messages are kept per thread.
-/

namespace JitGemm.Foreign

/-- What one thread sees between its calls. -/
structure Session (α : Type) where
  dispatcher : Dispatcher α
  /-- The pending message. -/
  lastError : Option String := none

/-- What a call leaves to its caller: a status, and the C buffer unless its pointer was null. -/
structure Reply (γ : Type) where
  status : Status
  c : Pointer (Array γ)
  deriving DecidableEq, Repr

/-- Message of a call that was stopped by a fault. -/
def stoppedMessage : String := "internal panic"

namespace Session

variable {α : Type}

/-! ## Messages -/

/-- Makes a message the pending one. Foreign text ends at a NUL, so NULs are dropped. -/
def setLastError (s : Session α) (message : String) : Session α :=
  { s with lastError := some (String.ofList (message.toList.filter (· ≠ '\x00'))) }

def takeLastError (s : Session α) : Option String × Session α :=
  (s.lastError, { s with lastError := none })

/-! ## Products -/

def fail {γ : Type} (s : Session α) (status : Status) (message : String)
    (c : Pointer (Array γ)) : Reply γ × Session α :=
  (⟨status, c⟩, s.setLastError message)

def refuse {γ : Type} (s : Session α) (e : GemmError) (c : Pointer (Array γ)) :
    Reply γ × Session α :=
  s.fail (.ofError e) e.message c

/-- A buffer whose first elements are now `part`. -/
def overwrite {γ : Type} (buffer part : Array γ) : Array γ :=
  part ++ buffer.extract part.size buffer.size

/-- Runs a call as it was read. The buffer behind `c` beyond what the call works on is kept. -/
def run {A B γ : Type} (s : Session α) (c : Pointer (Array γ))
    (decoded : Except GemmError (Decoded α A B γ))
    (entry : Dispatcher α → Request α A B → Array γ → Dispatcher.Answer α A B γ) :
    Reply γ × Session α :=
  match decoded with
  | .error e => s.refuse e c
  | .ok call =>
    let answer := entry s.dispatcher call.request call.c
    let s := { s with dispatcher := answer.dispatcher }
    let c := c.map (overwrite · answer.c)
    match answer.outcome with
    | .routed _ | .degenerate => (⟨.success, c⟩, s)
    | .refused e => s.refuse e c
    | .stopped _ => s.fail .unimplemented stoppedMessage c

variable (ar : Arith α)

/-- Single precision with an optional bias. -/
def sgemmExt (s : Session α) (x : RealCall α α) : Reply α × Session α :=
  s.run x.c (x.decode .f32) (Dispatcher.sgemm ar)

/-- Single precision. It has neither a bias nor a say in the route. -/
def sgemm (s : Session α) (x : RealCall α α) : Reply α × Session α :=
  s.sgemmExt ar { x with bias := none, forceNocopy := false }

def bf16 (s : Session α) (x : RealCall α BFloat16) : Reply α × Session α :=
  let x := { x with bias := none, forceNocopy := false }
  s.run x.c (x.decode .bf16) (Dispatcher.bf16 ar)

def s8u8 (s : Session α) (x : QuantizedCall α UInt8) : Reply Int32 × Session α :=
  s.run x.c (x.decode .unsigned) (Dispatcher.s8u8 ar)

def s8s8 (s : Session α) (x : QuantizedCall α Int8) : Reply Int32 × Session α :=
  s.run x.c (x.decode .signed) (Dispatcher.s8s8 ar)

/-! ## Settings -/

/-- The text of bytes that end at the first NUL; `none` if it is not UTF-8. -/
def text? (bytes : List UInt8) : Option String :=
  String.fromUTF8? ⟨(bytes.takeWhile (· ≠ 0)).toArray⟩

/-- Whether the extension that a foreign text names is in use. Null names none. -/
def mayUse (s : Session α) (token : Pointer (List UInt8)) : Bool :=
  ((token.bind text?).bind Isa.ofToken?).any s.dispatcher.caps.contains

def setDump (s : Session α) (on : Bool) : Session α :=
  let policy := s.dispatcher.policy
  { s with dispatcher := { s.dispatcher with
      policy := { policy with dump := { policy.dump with toggle := on } } } }

def dumping (s : Session α) : Bool := s.dispatcher.policy.dump.toggle

end Session

end JitGemm.Foreign
