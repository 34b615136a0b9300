import ForthMachine.Listing
import ForthMachine.Machine.Step

/-!
Images: machines that understand source text. An image holds the built-in words, the outer
interpreter that reads and runs words for ever, and the core words, which are defined in source text.
-/

namespace ForthMachine

/-- An installed image: its first address, and the address of the outer interpreter. -/
structure Image where
  base : Word
  quit : Word
  deriving DecidableEq, Repr

namespace Image

def defaultBase : Word := 16

def outerInterpreter : String := "
\\ outer interpreter
.L quit
	INTERPRET
	BRANCH quit
"

def core : String := "
\\ control structures
: IF [ ' 0BRANCH ] LITERAL , HERE @ 0 , ; IMMEDIATE
: THEN DUP HERE @ SWAP - SWAP ! ; IMMEDIATE
: ELSE [ ' BRANCH ] LITERAL , HERE @ 0 ,
  SWAP DUP HERE @ SWAP - SWAP ! ; IMMEDIATE
: BEGIN HERE @ ; IMMEDIATE
: UNTIL [ ' 0BRANCH ] LITERAL , HERE @ - , ; IMMEDIATE
: AGAIN [ ' BRANCH ] LITERAL , HERE @ - , ; IMMEDIATE

\\ stack
: NIP SWAP DROP ;
: TUCK SWAP OVER ;
: 2DUP OVER OVER ;
: 2DROP DROP DROP ;
: ?DUP DUP IF DUP THEN ;

\\ arithmetics
: 1+ 1 + ;
: 1- 1 - ;
: / /MOD NIP ;
: MOD /MOD DROP ;
: > SWAP < ;
: <> = 0= ;
: 0< 0 < ;
: ABS DUP 0< IF NEGATE THEN ;
: NOT 0= ;

\\ io
: BL 32 ;
: SPACE BL EMIT ;
"

inductive Error where
  | base
  /-- The headers or the outer interpreter could not be built. -/
  | failed (f : Failure)
  | listing (e : Listing.Error)
  | coreTrapped (t : Trap)
  | coreCancelled
  deriving DecidableEq, Repr

def cancelledMessage : String := "context canceled"

def Error.message : Error → String
  | base => "bootstrap: base overlaps system variables"
  | failed f => f.message
  | listing e => "bootstrap: " ++ e.message
  | coreTrapped t => "bootstrap: core: " ++ t.message
  | coreCancelled => "bootstrap: core: " ++ cancelledMessage

def isValidBase (base : Word) : Bool := Memory.stateAddress < base

/-- Sends a machine into the outer interpreter with a source as its input. The stacks are kept. -/
def enter (img : Image) (source : Source) (m : Machine) : Machine where
  state := { m.state with ip := img.quit, nip := img.quit + 1 }
  console := { m.console with input := some source }

/-- Runs the outer interpreter over a source, for at most `fuel` steps. The machine has its former
input back afterwards. -/
def evaluate (img : Image) (fuel : Nat) (source : Source) (m : Machine) :
    Machine.Outcome × Machine :=
  let (outcome, ended) := (img.enter source m).run fuel
  (outcome, { ended with console.input := m.console.input })

def installBuiltin (b : Builtin) : Action State Unit := do
  let i ← State.define b.name
  State.comma (.builtin b)
  State.modifyFlags i fun f => { f with immediate := b.isImmediate }

def installBuiltins (base : Word) : Action State Unit := do
  State.store Memory.hereAddress (.addr base)
  State.store Memory.latestAddress .nil
  State.store Memory.stateAddress (.int 0)
  for b in Builtin.all do
    installBuiltin b

def installQuit (m : Machine) : Except Error Word × Machine :=
  let header : Action State Word := do
    discard (State.define "QUIT")
    State.comma (.builtin .docol)
    State.fetchAddress Memory.hereAddress
  match header m.state with
  | .error f st => (.error (.failed f), { m with state := st })
  | .ok start st =>
    match Listing.assemble outerInterpreter st.dictionary start with
    | .error e => (.error (.listing e), { m with state := st })
    | .ok program =>
      -- the listing defines the label, so the default is never taken
      let quit := program.labels.getD "quit" 0
      let memory := (program.load st.memory).insert Memory.hereAddress (.addr program.endAddress)
      (.ok quit, { m with state := { st with memory }.reset quit })

/-- Installs an image at `base`, running at most `fuel` steps for the core words. After an error the
machine is left as far as it got. -/
def install (fuel : Nat) (base : Word) (m : Machine) : Except Error Image × Machine :=
  if isValidBase base then
    match installBuiltins base m.state with
    | .error f st => (.error (.failed f), { m with state := st })
    | .ok () st =>
      match installQuit { m with state := st } with
      | (.error e, m) => (.error e, m)
      | (.ok quit, m) =>
        let img : Image := { base, quit }
        match img.evaluate fuel { rest := core.toList } m with
        | (.finished, m) => (.ok img, m)
        | (.trapped t, m) => (.error (.coreTrapped t), m)
        | (.cancelled, m) => (.error .coreCancelled, m)
  else (.error .base, m)

end Image

end ForthMachine
