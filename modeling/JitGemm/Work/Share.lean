import JitGemm.Size

/-!
# Shares of work

`Share.of` cuts `total` units into consecutive shares, one per worker. Sizes differ by at most one,
and the workers with the lowest numbers hold the larger shares. Sums and products are those of
64-bit words, which matters only for worker numbers that no team has.
-/

namespace JitGemm.Work

/-- The units `start ≤ u < stop`. -/
structure Share where
  start : Nat
  stop : Nat
  deriving DecidableEq, Repr

namespace Share

def size (s : Share) : Nat := s.stop - s.start

def empty (s : Share) : Bool := s.stop ≤ s.start

/-- A team of at most one worker gives all units to whoever asks. A worker number past the team
gets the empty share at `total`, unless its start wraps. -/
def of (total workers worker : Nat) : Share :=
  if workers ≤ 1 ∨ total = 0 then ⟨0, total⟩ else
    let large := Size.ceilDiv total workers
    let small := large - 1
    let numLarge := total - small * workers
    let start :=
      if worker < numLarge then Size.wrap (worker * large)
      else Size.wrap (numLarge * large + (worker - numLarge) * small)
    let count := if worker < numLarge then large else small
    if total ≤ start then ⟨total, total⟩ else ⟨start, min (Size.wrap (start + count)) total⟩

end Share

end JitGemm.Work
