import JitGemm.Size

/-!
# Odometers

Mixed-radix counters over the coordinates of a box, last coordinate fastest. An odometer exists
for positive extents only.
-/

namespace JitGemm.Work

structure Odometer where
  dims : List Nat
  coords : List Nat
  deriving DecidableEq, Repr

namespace Odometer

/-- Coordinates of linear position `n`, and how often the whole box was passed. -/
def digits : List Nat → Nat → List Nat × Nat
  | [], n => ([], n)
  | d :: ds, n =>
    let (low, rest) := digits ds n
    (rest % d :: low, rest / d)

def start (dims : List Nat) (n : Nat) : Odometer := ⟨dims, (digits dims n).1⟩

/-- Refuses a box with a zero extent. -/
def start? (dims : List Nat) (n : Nat) : Option Odometer :=
  if dims.all (0 < ·) then some (start dims n) else none

/-- One step forward. The flag says that every coordinate fell back to zero. -/
def step : List Nat → List Nat → List Nat × Bool
  | d :: ds, c :: cs =>
    let (low, carry) := step ds cs
    if carry then
      if c + 1 < d then ((c + 1) :: low, false) else (0 :: low, true)
    else (c :: low, false)
  | _, _ => ([], true)

/-- The next odometer, and whether it is still inside the current round. -/
def advance (o : Odometer) : Odometer × Bool :=
  let (coords, carry) := step o.dims o.coords
  (⟨o.dims, coords⟩, !carry)

/-- Linear position, in 64-bit words. -/
def linear (o : Odometer) : Nat :=
  (o.coords.zip o.dims).foldl (fun acc (c, d) => Size.wrap (acc * d + c)) 0

/-- The first `n` coordinates from `o` on. -/
def walk : Nat → Odometer → List (List Nat)
  | 0, _ => []
  | n + 1, o => o.coords :: walk n o.advance.1

/-- Decimal list in square brackets. -/
def dimsText (dims : List Nat) : String :=
  "[" ++ ", ".intercalate (dims.map Nat.repr) ++ "]"

/-- What is reported when `start?` refuses. -/
def refusal (dims : List Nat) : String := "NdCounter: zero extent in " ++ dimsText dims

end Odometer

end JitGemm.Work
