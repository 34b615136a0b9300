import ForthMachine.Words.Operand

namespace ForthMachine.Storage

open State

def topReturn : Action State Word := do
  Action.orRaise (← get).returns.head? .returnUnderflow

def takeReturn : Action State Word := do
  let r ← topReturn
  modify fun st => { st with returns := st.returns.tail }
  pure r

def pushReturn (r : Word) : Action State Unit :=
  modify fun st => { st with returns := r :: st.returns }

/-- `( n -- ) ( R: -- n )` -/
def toReturn : Action State Unit := do
  pushReturn (← onStack Operand.number)

/-- `( -- n ) ( R: n -- )` -/
def fromReturn : Action State Unit := do
  push (.int (← takeReturn))

/-- `( -- n ) ( R: n -- n )` -/
def copyReturn : Action State Unit := do
  push (.int (← topReturn))

/-- `( R: n -- )` -/
def dropReturn : Action State Unit := discard takeReturn

/-- `( a -- x )` -/
def fetch : Action State Unit := do
  let a ← onStack Operand.address
  push (← State.fetch a)

/-- `( x a -- )` -/
def store : Action State Unit := do
  let (a, c) ← onStack do
    Operand.need 2
    let a ← Operand.address
    let c ← Operand.cell
    pure (a, c)
  State.store a c

/-- `( n a -- )`, adds to the cell at `a`. An address stays an address; other numbers become
integers. -/
def plusStore : Action State Unit := do
  let (a, n) ← onStack do
    Operand.need 2
    let a ← Operand.address
    let n ← Operand.number
    pure (a, n)
  match ← State.fetch a with
  | .addr v => State.store a (.addr (v + n))
  | c => State.store a (.int ((← Action.orRaise c.number? .typeMismatch) + n))

/-- Takes three cells, of which the last is on top, and reads each as an address. -/
def takeMove : Action (Stack Cell) (Word × Word × Word) := do
  Operand.need 3
  -- all three are taken, also where one of them is no address
  let count ← Operand.cell
  let source ← Operand.cell
  let target ← Operand.cell
  match target.address?, source.address?, count.address? with
  | some t, some s, some n => pure (t, s, n)
  | _, _, _ => Action.raiseAt .invalidAddress (-1)

/-- `( target source n -- )`, copies `n` cells, the lowest first. -/
def move : Action State Unit := do
  let (target, source, count) ← onStack takeMove
  let st ← get
  let (memory, unwritten) := st.memory.copyUp target source count.toInt.toNat
  -- what was copied before an unwritten address stays
  set { st with memory }
  match unwritten with
  | none => advance
  | some a => Action.raiseAt .unwrittenAddress a

end ForthMachine.Storage
