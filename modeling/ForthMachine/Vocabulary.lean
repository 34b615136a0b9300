namespace ForthMachine

/-- How a primitive leaves the instruction pointer: after an ordinary word the machine goes on with
the next cell, a word with next sets the pointer itself. -/
inductive Contract where
  | ordinary
  | withNext
  deriving DecidableEq, Repr

inductive Builtin where
  | drop | dup | copySecond | swap | rot | depth
  | toReturn | fromReturn | copyReturn | dropReturn
  | plus | minus | times | divMod | negate
  | equals | less | zeroEquals
  | fetch | store | plusStore | move
  | here | latest | state
  | lit | branch | zeroBranch | docol | exit | execute
  | key | emit | dot | cr | words
  | word | find | number | comma | create | immediate | hidden
  | leftBracket | rightBracket | colon | semicolon | tick | literal | interpret
  | trace | bye
  deriving DecidableEq, Repr

namespace Builtin

def all : List Builtin := [
  drop, dup, copySecond, swap, rot, depth,
  toReturn, fromReturn, copyReturn, dropReturn,
  plus, minus, times, divMod, negate,
  equals, less, zeroEquals,
  fetch, store, plusStore, move,
  here, latest, state,
  lit, branch, zeroBranch, docol, exit, execute,
  key, emit, dot, cr, words,
  word, find, number, comma, create, immediate, hidden,
  leftBracket, rightBracket, colon, semicolon, tick, literal, interpret,
  trace, bye]

def name : Builtin → String
  | drop => "DROP"
  | dup => "DUP"
  | copySecond => "OVER"
  | swap => "SWAP"
  | rot => "ROT"
  | depth => "DEPTH"
  | toReturn => ">R"
  | fromReturn => "R>"
  | copyReturn => "R@"
  | dropReturn => "RDROP"
  | plus => "+"
  | minus => "-"
  | times => "*"
  | divMod => "/MOD"
  | negate => "NEGATE"
  | equals => "="
  | less => "<"
  | zeroEquals => "0="
  | fetch => "@"
  | store => "!"
  | plusStore => "+!"
  | move => "MOVE"
  | here => "HERE"
  | latest => "LATEST"
  | state => "STATE"
  | lit => "LIT"
  | branch => "BRANCH"
  | zeroBranch => "0BRANCH"
  | docol => "DOCOL"
  | exit => "EXIT"
  | execute => "EXECUTE"
  | key => "KEY"
  | emit => "EMIT"
  | dot => "."
  | cr => "CR"
  | words => "WORDS"
  | word => "WORD"
  | find => "FIND"
  | number => "NUMBER"
  | comma => ","
  | create => "CREATE"
  | immediate => "IMMEDIATE"
  | hidden => "HIDDEN"
  | leftBracket => "["
  | rightBracket => "]"
  | colon => ":"
  | semicolon => ";"
  | tick => "'"
  | literal => "LITERAL"
  | interpret => "INTERPRET"
  | trace => "TRACE"
  | bye => "BYE"

def isImmediate : Builtin → Bool
  | immediate | leftBracket | semicolon | literal => true
  | _ => false

def contract : Builtin → Contract
  | move | lit | branch | zeroBranch | docol | exit | execute | interpret => .withNext
  | _ => .ordinary

/-- The built-in word with the given name; upper and lower case differ. -/
def ofName? (name : String) : Option Builtin := all.find? (·.name == name)

end Builtin

/-- What a cell runs: a built-in word, or a word of the host program that the machine knows by its
name and contract alone. A host word without a contract cannot be run; one with a contract fails
when it is run. -/
inductive Primitive where
  | builtin (b : Builtin)
  | host (name : String) (contract : Option Contract)
  deriving DecidableEq, Repr

namespace Primitive

def name : Primitive → String
  | builtin b => b.name
  | host name _ => name

end Primitive

end ForthMachine
