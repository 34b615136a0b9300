import ForthMachine.Words.Terminal

namespace ForthMachine.Compiler

open Machine State

/-- `( text -- | xt )`, nothing for a name that is not visible. -/
def find : Action State Unit := do
  let name ← onStack Operand.text
  match (← get).dictionary.find? name with
  | some e => push (.addr e.code)
  | none => pure ()

/-- `( text -- n 0 | nil -1 )` -/
def number : Action State Unit := do
  let s ← onStack Operand.text
  match Numeral.decimal? s.toList with
  | some n =>
    push (.int n)
    push (.int 0)
  | none =>
    push .nil
    push (.int (-1))

/-- `( x -- )`, compiles a cell. -/
def comma : Action State Unit := do
  State.comma (← onStack Operand.cell)

/-- `( text -- )`, builds a header. -/
def create : Action State Unit := do
  let name ← onStack Operand.text
  discard (define name)

def immediate : Action State Unit := do
  modifyFlags (← latest) fun f => { f with immediate := !f.immediate }

/-- `( xt -- )`, turns the hidden flag of an entry over. -/
def hidden : Action State Unit := do
  let code ← onStack Operand.token
  match (← get).dictionary.codePosition? code with
  | some i => modifyFlags i fun f => { f with hidden := !f.hidden }
  | none => Action.raiseAt .dictionaryInconsistency code

def leftBracket : Action State Unit := store Memory.stateAddress (.int 0)

def rightBracket : Action State Unit := store Memory.stateAddress (.int 1)

/-- Starts the definition of a name, which stays hidden until it is complete. -/
def beginDefinition (name : String) : Action State Unit := do
  let i ← define name
  State.comma (.builtin .docol)
  modifyFlags i fun f => { f with hidden := true }
  rightBracket

/-- `( "name" -- )` -/
def colon : Action Machine Unit := do
  let name ← Terminal.nextWord
  onState (beginDefinition name)

def semicolon : Action State Unit := do
  State.comma (.builtin .exit)
  modifyFlags (← latest) fun f => { f with hidden := false }
  leftBracket

def unknown {σ α : Type} (token : String) : Action σ α :=
  throw (.trap { kind := .unresolvable, token })

/-- `( "name" -- xt )` -/
def tick : Action Machine Unit := do
  let name ← Terminal.nextWord
  match (← get).state.dictionary.find? name with
  | some e => onState (push (.ref e.code))
  | none => unknown name

def compileLiteral (c : Cell) : Action State Unit := do
  State.comma (.builtin .lit)
  State.comma c

/-- `( x -- )` -/
def literal : Action State Unit := do
  compileLiteral (← onStack Operand.cell)

/-- What a word of the program asks for: a code field to run now, or `none` once the word has been
dealt with. A visible name is run or compiled; any other word has to be a number. -/
def meaning (name : String) : Action State (Option Word) := do
  let st ← get
  match st.dictionary.find? name with
  | some e =>
    -- a word that runs moves the pointer itself; any other one is passed here
    if e.flags.immediate || !st.isCompiling then pure (some e.code)
    else
      State.comma (.ref e.code)
      advance
      pure none
  | none =>
    match Numeral.decimal? name.toList with
    | none => unknown name
    | some n =>
      if st.isCompiling then compileLiteral (.int n) else push (.int n)
      advance
      pure none

/-- `( i*x "name" -- j*x )` -/
def interpret : Action Machine (Option Word) := do
  let name ← Terminal.nextWord
  onState (meaning name)

end ForthMachine.Compiler
