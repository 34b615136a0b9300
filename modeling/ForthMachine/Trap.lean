import ForthMachine.Cell

namespace ForthMachine

namespace Trap

inductive Kind where
  | bye
  | endOfInput
  | unwrittenAddress
  | stackUnderflow
  | returnUnderflow
  | invalidAddress
  | typeMismatch
  /-- The headers in memory do not agree with the dictionary. -/
  | dictionaryInconsistency
  /-- A cell cannot be run, or a word is neither defined nor a number. -/
  | unresolvable
  | zeroDivision
  | ioFailure
  | unlisted (code : Word)
  deriving DecidableEq, Repr

namespace Kind

def listed : List Kind :=
  [bye, endOfInput, unwrittenAddress, stackUnderflow, returnUnderflow, invalidAddress, typeMismatch,
    dictionaryInconsistency, unresolvable, zeroDivision, ioFailure]

def code : Kind → Word
  | bye => 0
  | endOfInput => 1
  | unwrittenAddress => 2
  | stackUnderflow => 3
  | returnUnderflow => 4
  | invalidAddress => 5
  | typeMismatch => 6
  | dictionaryInconsistency => 7
  | unresolvable => 8
  | zeroDivision => 9
  | ioFailure => 10
  | unlisted code => code

def ofCode (code : Word) : Kind := (listed.find? (·.code = code)).getD (.unlisted code)

def message : Kind → String
  | bye => "BYE"
  | endOfInput => "EOF"
  | unwrittenAddress => "uninitialized address"
  | stackUnderflow => "stack underflow"
  | returnUnderflow => "return stack underflow"
  | invalidAddress => "invalid address"
  | typeMismatch => "type mismatch"
  | dictionaryInconsistency => "dictionary inconsistency"
  | unresolvable => "unresolvable cell"
  | zeroDivision => "zero division"
  | ioFailure => "I/O error"
  | unlisted code => "errno " ++ Numeral.render code

end Kind

/-- Where the machine stood: both pointers before the step, both stacks after it. -/
structure Context where
  ip : Word
  nip : Word
  stack : List Cell
  returns : List Word
  deriving DecidableEq, Repr

end Trap

/-- A trap. The fields after `kind` are left empty where they do not apply. -/
structure Trap where
  kind : Trap.Kind
  cause : Option String := none
  address : Word := 0
  token : String := ""
  /-- The name of the primitive that raised the trap. -/
  word : String := ""
  context : Option Trap.Context := none
  deriving DecidableEq, Repr

namespace Trap

def detail (t : Trap) : String :=
  match t.kind with
  | .unwrittenAddress | .invalidAddress => " " ++ Numeral.render t.address
  | .unresolvable => if t.token = "" then "" else " " ++ Text.quote t.token
  | _ => ""

def message (t : Trap) : String :=
  "tforth: "
    ++ t.cause.getD (t.kind.message ++ t.detail)
    ++ (if t.word = "" then "" else " in " ++ t.word)
    ++ (match t.context with
      | some c => " at " ++ Numeral.render c.ip
      | none => "")

/-- Names the primitive that raised a trap, unless one further in has been named already. -/
def inWord (name : String) (t : Trap) : Trap :=
  if t.word = "" then { t with word := name } else t

end Trap

/-- How an action fails: by a trap, or by a failure of the host that is no trap. -/
inductive Failure where
  | trap (t : Trap)
  | host (message : String)
  deriving DecidableEq, Repr

namespace Failure

def ofKind (kind : Trap.Kind) : Failure := .trap { kind }

def atAddress (kind : Trap.Kind) (address : Word) : Failure := .trap { kind, address }

def message : Failure → String
  | trap t => t.message
  | host message => message

def kind? : Failure → Option Trap.Kind
  | trap t => some t.kind
  | host _ => none

/-- Names the primitive that raised a trap; failures of the host have no name yet. -/
def inWord (name : String) : Failure → Failure
  | trap t => .trap (t.inWord name)
  | host message => .host message

end Failure

end ForthMachine
