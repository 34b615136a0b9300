import ForthMachine.Machine.Header
import ForthMachine.Words.Operand

namespace ForthMachine.Terminal

open Machine

def failureOf : Ending → Failure
  | .endOfInput => .ofKind .endOfInput
  | .failure message => .trap { kind := .ioFailure, cause := some message }

/-- Reads from the input by a function that gives a value or the ending of the source. Without an
input there is nothing to read. -/
def read {α : Type} (next : Source → Except Ending α × Source) : Action Console α := do
  match (← get).input with
  | none => throw (failureOf .endOfInput)
  | some source =>
    let (result, source) := next source
    -- what was read is gone from the source, whatever comes of it
    modify fun c => { c with input := some source }
    match result with
    | .ok a => pure a
    | .error ending => throw (failureOf ending)

def nextWord : Action Machine String := onConsole (read Source.nextWord)

/-- Writes to the output; a refused piece is a trap. -/
def write (piece : String) : Action Machine Unit := onConsole do
  let c ← get
  let (refused, output) := c.output.write piece
  set { c with output }
  match refused with
  | none => pure ()
  | some reason => throw (.trap { kind := .ioFailure, cause := some reason })

/-- Writes to the output; a refused piece is not noticed. -/
def offer (piece : String) : Action Machine Unit :=
  modify fun m => { m with console.output := (m.console.output.write piece).2 }

/-- `( -- char )` -/
def key : Action Machine Unit := do
  let c ← onConsole (read Source.nextChar)
  onState (State.push (.char (Int32.ofNat c.toNat)))

/-- `( char -- )`, writes a character; a surrogate is written as U+FFFD. -/
def emit : Action Machine Unit := do
  let code ← onState (State.onStack do Action.orRaise (← Operand.cell).code? .typeMismatch)
  write (String.singleton (Text.charOfCode code))

/-- `( x -- )`, writes a cell and a space. -/
def dot : Action Machine Unit := do
  let c ← onState (State.onStack Operand.cell)
  write (c.render ++ " ")

/-- `( "name" -- text )` -/
def word : Action Machine Unit := do
  let name ← nextWord
  onState (State.push (.text name))

/-- Writes the names of the visible entries of the chain of headers, newest first. -/
def words : Action Machine Unit := do
  match (← get).state.chain with
  -- the chain is walked to its end before the first name is written
  | (_, some t) => throw (.trap t)
  | (entries, none) =>
    for e in entries do
      if !e.flags.hidden then offer (e.name ++ " ")
    offer "\n"

/-- `( flag -- )`, turns tracing on or off. -/
def trace : Action Machine Unit := do
  let flag ← onState (State.onStack Operand.cell)
  modify fun m => { m with console.tracing := !flag.isFalse }

end ForthMachine.Terminal
