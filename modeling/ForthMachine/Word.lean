/-!
Machine words. Every integer of the machine is a signed 64-bit word: sums, differences and products
wrap around, and a quotient is truncated towards zero.
-/

namespace ForthMachine

/-- A signed 64-bit integer with wrap-around arithmetic. -/
abbrev Word := Int64

namespace Word

def bound : Nat := 0x8000000000000000

/-- The word with value `n`, when `n` lies between -2^63 and 2^63 - 1. -/
def ofInt? (n : Int) : Option Word :=
  if -(bound : Int) ≤ n ∧ n < bound then some (Int64.ofInt n) else none

def plus (a : Word) (n : Nat) : Word := a + Int64.ofNat n

end Word

end ForthMachine
