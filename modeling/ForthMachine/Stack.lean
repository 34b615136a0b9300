import ForthMachine.Word

namespace ForthMachine

abbrev Stack (α : Type) := List α

namespace Stack

variable {α : Type}

/-- The position `n` items below the top, when the stack has one. To check for `n + 1` items instead would
not be the same at `n = 2 ^ 63 - 1`: there `n + 1` wraps around, the check passes on every stack, and reading
the item crashes. Here that `n` has no position, and `pick` and `roll` underflow. -/
def position? (s : Stack α) (n : Word) : Option Nat :=
  if 0 ≤ n ∧ n.toInt < s.length then some n.toInt.toNat else none

def pick (s : Stack α) (n : Word) : Option (Stack α) :=
  (position? s n).bind fun i => s[i]?.map (· :: s)

def roll (s : Stack α) (n : Word) : Option (Stack α) :=
  (position? s n).bind fun i => s[i]?.map (· :: s.eraseIdx i)

end Stack

end ForthMachine
