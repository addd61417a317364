/-!
# Sizes

Extents, lengths and indices are natural numbers. Where a computation runs in 64-bit words its
result goes through `Size.wrap` or is capped at `Size.limit`; everywhere else it is exact. A build
that checks its arithmetic stops where `Size.wrap` cuts something off; here only the size of a frame
is checked.
-/

namespace JitGemm.Size

/-- Number of distinct 64-bit words. -/
def modulus : Nat := 0x10000000000000000

/-- Largest 64-bit size. -/
def limit : Nat := modulus - 1

/-- Largest byte distance inside one object, half the address space. -/
def objectLimit : Nat := 0x7fffffffffffffff

def wrap (n : Nat) : Nat := n % modulus

/-- The exact size when it is a word, else the largest word. -/
def cap (n : Nat) : Nat := min n limit

def ceilDiv (n d : Nat) : Nat := n / d + (if n % d = 0 then 0 else 1)

theorem wrap_of_lt {n : Nat} (h : n < modulus) : wrap n = n := Nat.mod_eq_of_lt h

theorem wrap_lt (n : Nat) : wrap n < modulus := Nat.mod_lt _ (by decide)

end JitGemm.Size
