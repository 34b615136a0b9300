import ForthMachine.Words.Storage

namespace ForthMachine.Control

open State

/-- `( -- x )`, the cell after the word. -/
def lit : Action State Unit := do
  let nip := (← get).nip
  push (← fetch nip)
  jump (nip + 1)

def branch : Action State Unit := do
  let nip := (← get).nip
  let offset ← Action.orRaise (← fetch nip).address? .typeMismatch
  jump (nip + offset)

/-- `( flag -- )`, branches on a false flag and skips the offset on a true one. -/
def zeroBranch : Action State Unit := do
  let flag ← onStack Operand.cell
  if flag.isFalse then branch else jump ((← get).nip + 1)

def docol (w : Word) : Action State Unit := do
  Storage.pushReturn (← get).nip
  jump (w + 1)

def exit : Action State Unit := do
  jump (← Storage.takeReturn)

end ForthMachine.Control
