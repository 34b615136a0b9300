import ForthMachine.Machine.Basic

namespace ForthMachine.Operand

def need (n : Nat) : Action (Stack Cell) Unit := do
  if (← get).length < n then Action.raise .stackUnderflow

def cell : Action (Stack Cell) Cell := do
  match ← get with
  | c :: rest =>
    set rest
    pure c
  | [] => Action.raise .stackUnderflow

def number : Action (Stack Cell) Word := do
  Action.orRaise (← cell).number? .typeMismatch

def text : Action (Stack Cell) String := do
  Action.orRaise (← cell).text? .typeMismatch

def address : Action (Stack Cell) Word := do
  Action.orRaiseAt (← cell).address? .invalidAddress (-1)

def token : Action (Stack Cell) Word := do
  Action.orRaiseAt (← cell).token? .invalidAddress (-1)

def push (c : Cell) : Action (Stack Cell) Unit := modify (c :: ·)

def rearrange (f : Stack Cell → Option (Stack Cell)) : Action (Stack Cell) Unit := do
  match f (← get) with
  | some s => set s
  | none => Action.raise .stackUnderflow

/-- Takes two numbers, the second one from the top, and puts a cell made of them. -/
def binary (f : Word → Word → Cell) : Action (Stack Cell) Unit := do
  need 2
  let y ← number
  let x ← number
  push (f x y)

end ForthMachine.Operand
