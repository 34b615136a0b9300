import ForthMachine.Words.Operand

namespace ForthMachine.Calculation

open Operand

/-- `( x -- )` -/
def drop : Action (Stack Cell) Unit := discard cell

/-- `( x -- x x )` -/
def dup : Action (Stack Cell) Unit := rearrange (·.pick 0)

/-- `( x1 x2 -- x1 x2 x1 )` -/
def copySecond : Action (Stack Cell) Unit := rearrange (·.pick 1)

/-- `( x1 x2 -- x2 x1 )` -/
def swap : Action (Stack Cell) Unit := rearrange (·.roll 1)

/-- `( x1 x2 x3 -- x2 x3 x1 )` -/
def rot : Action (Stack Cell) Unit := rearrange (·.roll 2)

/-- `( -- n )`, the number of cells before. -/
def depth : Action (Stack Cell) Unit := do
  push (.int (Int64.ofNat (← get).length))

/-- `( n1 n2 -- n3 )` -/
def plus : Action (Stack Cell) Unit := binary fun x y => .int (x + y)

/-- `( n1 n2 -- n3 )` -/
def minus : Action (Stack Cell) Unit := binary fun x y => .int (x - y)

/-- `( n1 n2 -- n3 )` -/
def times : Action (Stack Cell) Unit := binary fun x y => .int (x * y)

/-- `( n1 n2 -- rem quot )`, the quotient truncated towards zero. -/
def divMod : Action (Stack Cell) Unit := do
  need 2
  let y ← number
  let x ← number
  -- both numbers are gone by now, also where there is nothing to divide by
  if y = 0 then Action.raise .zeroDivision
  push (.int (x % y))
  push (.int (x / y))

/-- `( n1 -- n2 )` -/
def negate : Action (Stack Cell) Unit := do
  push (.int (-(← number)))

/-- `( x1 x2 -- flag )`; numbers are compared whatever their tags. -/
def equals : Action (Stack Cell) Unit := do
  need 2
  let y ← cell
  let x ← cell
  push (.ofBool (x.sameAs y))

/-- `( n1 n2 -- flag )` -/
def less : Action (Stack Cell) Unit := binary fun x y => .ofBool (x < y)

/-- `( x -- flag )` -/
def zeroEquals : Action (Stack Cell) Unit := do
  push (.ofBool (← cell).isFalse)

end ForthMachine.Calculation
