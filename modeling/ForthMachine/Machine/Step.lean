import ForthMachine.Words.Calculation
import ForthMachine.Words.Compiler
import ForthMachine.Words.Control

/-!
Running the machine. A step runs the primitive of the cell at the instruction pointer. Two words hand
over to another word within the same step: EXECUTE, which takes a cell from the stack for it, and
INTERPRET, which takes characters from the input. So a step ends.
-/

namespace ForthMachine

namespace Builtin

/-- Runs a built-in word whose code field is at `w`. Gives the code field that it hands over to, if
any. -/
def perform (w : Word) : Builtin → Action Machine (Option Word)
  | drop => onStack Calculation.drop
  | dup => onStack Calculation.dup
  | copySecond => onStack Calculation.copySecond
  | swap => onStack Calculation.swap
  | rot => onStack Calculation.rot
  | depth => onStack Calculation.depth
  | toReturn => onState Storage.toReturn
  | fromReturn => onState Storage.fromReturn
  | copyReturn => onState Storage.copyReturn
  | dropReturn => onState Storage.dropReturn
  | plus => onStack Calculation.plus
  | minus => onStack Calculation.minus
  | times => onStack Calculation.times
  | divMod => onStack Calculation.divMod
  | negate => onStack Calculation.negate
  | equals => onStack Calculation.equals
  | less => onStack Calculation.less
  | zeroEquals => onStack Calculation.zeroEquals
  | fetch => onState Storage.fetch
  | store => onState Storage.store
  | plusStore => onState Storage.plusStore
  | move => onState Storage.move
  | here => onState (State.push (.addr Memory.hereAddress))
  | latest => onState (State.push (.addr Memory.latestAddress))
  | state => onState (State.push (.addr Memory.stateAddress))
  | lit => onState Control.lit
  | branch => onState Control.branch
  | zeroBranch => onState Control.zeroBranch
  | docol => onState (Control.docol w)
  | exit => onState Control.exit
  | execute => some <$> Machine.onState (State.onStack Operand.token)
  | key => finish Terminal.key
  | emit => finish Terminal.emit
  | dot => finish Terminal.dot
  | cr => finish (Terminal.write "\n")
  | words => finish Terminal.words
  | word => finish Terminal.word
  | find => onState Compiler.find
  | number => onState Compiler.number
  | comma => onState Compiler.comma
  | create => onState Compiler.create
  | immediate => onState Compiler.immediate
  | hidden => onState Compiler.hidden
  | leftBracket => onState Compiler.leftBracket
  | rightBracket => onState Compiler.rightBracket
  | colon => finish Compiler.colon
  | semicolon => onState Compiler.semicolon
  | tick => finish Compiler.tick
  | literal => onState Compiler.literal
  | interpret => Compiler.interpret
  | trace => finish Terminal.trace
  | bye => Action.raise .bye
where
  finish (x : Action Machine Unit) : Action Machine (Option Word) := do
    x
    pure none
  onState (x : Action State Unit) : Action Machine (Option Word) := finish (Machine.onState x)
  onStack (x : Action (Stack Cell) Unit) : Action Machine (Option Word) := onState (State.onStack x)

end Builtin

namespace Primitive

/-- Runs a primitive whose code field is at `w` under its contract. Gives the code field that it
hands over to, if any. -/
def perform (w : Word) : Primitive → Action Machine (Option Word)
  | builtin b =>
    match b.contract with
    | .withNext => b.perform w
    | .ordinary => do
      let next ← b.perform w
      Machine.onState State.advance
      pure next
  | host _ (some _) => throw (.host "failed")
  | host _ none => Action.raiseAt .unresolvable w

end Primitive

namespace Machine

def codeField (code : Word) : Action State Primitive := do
  Action.orRaiseAt (← State.fetch code).primitive? .unresolvable code

/-- Hands over to the word whose code field is at `code`, which runs as if it stood at the
instruction pointer. The fuel bounds how often a word hands over to the next one. -/
def handOver : Nat → Word → Action Machine Unit
  -- not reached with the fuel that `invoke` gives
  | 0, _ => pure ()
  | fuel + 1, code => do
    let p ← onState (codeField code)
    note ("-> " ++ p.name ++ " ")
    Action.inWord p.name do
      match ← p.perform code with
      | none => pure ()
      | some next => handOver fuel next

/-- The number of words that can still be handed over to, at most: each takes a cell from the stack
or a character from the input. -/
def patience (m : Machine) : Nat := m.state.stack.length + m.console.remaining

def invoke (w : Word) (p : Primitive) : Action Machine Unit :=
  Action.inWord p.name do
    match ← p.perform w with
    | none => pure ()
    | some next => handOver ((← get).patience + 1) next

/-- The code field and the primitive of the cell `c` at address `a`: the cell's own primitive, or the
one in the code field that it refers to. -/
def resolve (st : State) (a : Word) (c : Cell) : Except Trap (Word × Primitive) :=
  match c with
  | .ref code =>
    match st.memory[code]?.bind Cell.primitive? with
    | some p => .ok (code, p)
    | none => .error { kind := .unresolvable, address := code }
  | c =>
    match c.primitive? with
    | some p => .ok (a, p)
    | none => .error { kind := .unresolvable, address := a }

/-- The trap that a failure in a step becomes: it carries the pointers before the step, the stacks
after it, and, for a failure of the host, the name of the primitive at the instruction pointer. -/
def bind (f : Failure) (before after : State) (name : String) : Trap :=
  let t := match f with
    | .trap t => t
    | .host message => { kind := .ioFailure, cause := some message }
  { t.inWord name with
    context := some {
      ip := before.ip
      nip := before.nip
      stack := after.stack
      returns := after.returns } }

def noteStack (m : Machine) : Machine :=
  let console := m.state.stack.foldl (fun console c => console.note (" " ++ c.render)) m.console
  { m with console := console.note "\n" }

/-- Runs the cell at the instruction pointer. After a failure the state is as the failing primitive
left it. -/
def step : EStateM Trap Machine Unit := fun m =>
  let st := m.state
  match st.memory[st.ip]? with
  | none => .error (bind (.atAddress .unwrittenAddress st.ip) st st "") m
  | some c =>
    match resolve st st.ip c with
    | .error t => .error (bind (.trap t) st st "") m
    | .ok (w, p) =>
      let begun : Machine :=
        { state := { st with nip := st.ip + 1 }
          console := m.console.note ("@ " ++ Numeral.render st.ip ++ ": " ++ p.name ++ " ") }
      match invoke w p begun with
      | .ok () m => .ok () m.noteStack
      | .error f m =>
        -- the line of the trace ends here as well, without the stack
        .error (bind f st m.state p.name) { m with console := m.console.note "\n" }

inductive Outcome where
  | finished
  | cancelled
  | trapped (t : Trap)
  deriving DecidableEq, Repr

def run : Nat → Machine → Outcome × Machine
  | 0, m => (.cancelled, m)
  | n + 1, m =>
    match step m with
    | .ok () m => run n m
    | .error t m =>
      if t.kind = .bye ∨ t.kind = .endOfInput then (.finished, m) else (.trapped t, m)

def reset (m : Machine) (ip : Word) : Machine := { m with state := m.state.reset ip }

end Machine

end ForthMachine
