import JitGemm.Work.Odometer
import JitGemm.Work.Share

/-!
# Teams of workers

A team runs one body per worker. Every worker knows its number and the size of its team while it is
inside the body, and forgets both when it leaves. A box of coordinates is spread over a team by
cutting its row-major order into shares.
-/

namespace JitGemm.Work

/-- A worker's number in its team, and the size of that team. -/
structure Seat where
  worker : Nat
  team : Nat
  deriving DecidableEq, Repr

/-- A thread and the seat it holds, if it is inside a team body. -/
structure Thread where
  seat : Option Seat := none
  deriving DecidableEq, Repr

namespace Thread

def number (t : Thread) : Nat := t.seat.elim 0 Seat.worker

def teamSize (t : Thread) : Nat := t.seat.elim 1 Seat.team

/-- Runs `body` on the thread with `seat` taken, and gives the earlier seat back afterwards. -/
def within {α : Type} (t : Thread) (seat : Seat) (body : Thread → α × Thread) : α × Thread :=
  let (result, left) := body ⟨some seat⟩
  (result, { left with seat := t.seat })

theorem within_thread {α : Type} (t : Thread) (seat : Seat) (body : Thread → α × Thread) :
    (t.within seat body).2 = t := rfl

end Thread

/-- Number of units of a box, in 64-bit words. -/
def boxSize (dims : List Nat) : Nat := dims.foldl (fun acc d => Size.wrap (acc * d)) 1

/-- Coordinates that one seat visits, in order. -/
def visits (seat : Seat) (dims : List Nat) : List (List Nat) :=
  let total := boxSize dims
  if total = 0 then [] else
    let share := Share.of total seat.team seat.worker
    Odometer.walk share.size (Odometer.start dims share.start)

/-- One visit of a body: where, and what the visiting thread said of itself. -/
structure Visit where
  coords : List Nat
  number : Nat
  teamSize : Nat
  deriving DecidableEq, Repr

/-- Visits of a thread that walks the share of the seat it holds, or everything outside a team. -/
def Thread.visit (t : Thread) (dims : List Nat) : List Visit :=
  (visits ⟨t.number, t.teamSize⟩ dims).map fun c => ⟨c, t.number, t.teamSize⟩

inductive TeamError where
  | invalidCount (n : Nat)
  deriving DecidableEq, Repr

def TeamError.message : TeamError → String
  | .invalidCount n => "invalid thread count: " ++ n.repr

structure Team where
  size : Nat
  size_pos : 0 < size := by omega

namespace Team

def serial : Team := { size := 1 }

def ofCount? (n : Nat) : Except TeamError Team :=
  if h : 0 < n then .ok ⟨n, h⟩ else .error (.invalidCount n)

def seats (t : Team) : List Seat := (List.range t.size).map fun i => ⟨i, t.size⟩

/-- One run of `body` per seat, in seat order. A team of one runs on the calling thread; a larger
team has threads of its own, which hold no seat between bodies. -/
def parallel {α : Type} (t : Team) (caller : Thread) (body : Seat → Thread → α × Thread) :
    List α × Thread :=
  if t.size = 1 then
    let (result, left) := caller.within ⟨0, 1⟩ (body ⟨0, 1⟩)
    ([result], left)
  else
    (t.seats.map fun seat => (({} : Thread).within seat (body seat)).1, caller)

/-- All visits of a box by a forked team. A box with a zero extent forks nothing. -/
def forkVisits (t : Team) (caller : Thread) (dims : List Nat) : List Visit × Thread :=
  if dims.any (· == 0) then ([], caller) else
    let (runs, left) := t.parallel caller fun seat thread =>
      ((visits seat dims).map fun c => ⟨c, thread.number, thread.teamSize⟩, thread)
    (runs.flatten, left)

/-- All visits when every worker of a forked team walks its own share. -/
def nestedVisits (t : Team) (caller : Thread) (dims : List Nat) : List Visit × Thread :=
  let (runs, left) := t.parallel caller fun _ thread => (thread.visit dims, thread)
  (runs.flatten, left)

/-- Order in which a team's items `0, …, n-1` are done, worker by worker. -/
def items (t : Team) (n : Nat) : List Nat :=
  (t.seats.map fun seat => (visits seat [n]).map fun c => c.headD 0).flatten

/-- Visits filed under the number that the visiting thread gave. -/
def filed (t : Team) (vs : List Visit) : List (List (List Nat)) :=
  (List.range t.size).map fun i => (vs.filter (·.number == i)).map (·.coords)

/-- Team size that each worker saw on its last visit, zero without one. -/
def sizesSeen (t : Team) (vs : List Visit) : List Nat :=
  (List.range t.size).map fun i =>
    ((vs.filter (·.number == i)).getLast?).elim 0 (·.teamSize)

end Team

end JitGemm.Work
