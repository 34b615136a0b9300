import ForthMachine.Device
import ForthMachine.Dictionary
import ForthMachine.Memory
import ForthMachine.Stack
import ForthMachine.Trap

namespace ForthMachine

/-- Everything that a step of the machine reads or writes, its devices apart. -/
structure State where
  /-- The address of the cell to run. -/
  ip : Word := 0
  /-- The address of the cell after it. -/
  nip : Word := 1
  memory : Memory := ∅
  dictionary : Dictionary := ∅
  /-- The return stack, top first. -/
  returns : Stack Word := []
  /-- The parameter stack, top first. -/
  stack : Stack Cell := []

structure Machine where
  state : State := {}
  console : Console := {}

abbrev Action (σ α : Type) := EStateM Failure σ α

namespace Action

variable {σ τ α : Type}

def raise (kind : Trap.Kind) : Action σ α := throw (.ofKind kind)

def raiseAt (kind : Trap.Kind) (address : Word) : Action σ α := throw (.atAddress kind address)

def orRaise (x : Option α) (kind : Trap.Kind) : Action σ α :=
  match x with
  | some a => pure a
  | none => raise kind

def orRaiseAt (x : Option α) (kind : Trap.Kind) (address : Word) : Action σ α :=
  match x with
  | some a => pure a
  | none => raiseAt kind address

/-- Runs an action on a part of the state. -/
def zoom (get : τ → σ) (set : σ → τ → τ) (x : Action σ α) : Action τ α := fun t =>
  match x (get t) with
  | .ok a s => .ok a (set s t)
  | .error e s => .error e (set s t)

def inWord (name : String) (x : Action σ α) : Action σ α := fun s =>
  match x s with
  | .ok a s => .ok a s
  | .error e s => .error (e.inWord name) s

end Action

namespace State

def onStack {α : Type} (x : Action (Stack Cell) α) : Action State α :=
  x.zoom State.stack fun stack st => { st with stack }

def push (c : Cell) : Action State Unit :=
  modify fun st => { st with stack := c :: st.stack }

def fetch (a : Word) : Action State Cell := do
  Action.orRaiseAt (← get).memory[a]? .unwrittenAddress a

def fetchAddress (a : Word) : Action State Word := do
  Action.orRaiseAt (← fetch a).address? .invalidAddress a

def store (a : Word) (c : Cell) : Action State Unit :=
  modify fun st => { st with memory := st.memory.insert a c }

def jump (a : Word) : Action State Unit :=
  modify fun st => { st with ip := a, nip := a + 1 }

def advance : Action State Unit :=
  modify fun st => { st with ip := st.nip, nip := st.nip + 1 }

def modifyFlags (i : Nat) (f : Flags → Flags) : Action State Unit :=
  modify fun st => { st with dictionary := st.dictionary.modifyFlags i f }

def isCompiling (st : State) : Bool :=
  match st.memory[Memory.stateAddress]? with
  | some c => !c.isFalse
  | none => false

/-- Empties both stacks, leaves compilation and goes on at `ip`. -/
def reset (st : State) (ip : Word) : State :=
  { st with
    stack := []
    returns := []
    memory := st.memory.insert Memory.stateAddress (.int 0)
    ip
    nip := ip + 1 }

end State

namespace Machine

def onState {α : Type} (x : Action State α) : Action Machine α :=
  x.zoom Machine.state fun state m => { m with state }

def onConsole {α : Type} (x : Action Console α) : Action Machine α :=
  x.zoom Machine.console fun console m => { m with console }

def note (piece : String) : Action Machine Unit :=
  modify fun m => { m with console := m.console.note piece }

end Machine

end ForthMachine
