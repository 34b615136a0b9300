import Std.Data.ExtTreeMap
import ForthMachine.Cell

namespace ForthMachine

abbrev Memory := Std.ExtTreeMap Word Cell

namespace Memory

def hereAddress : Word := 0

/-- Holds the address of the newest header, or the empty cell. -/
def latestAddress : Word := 1

/-- Holds a false flag while words are interpreted, a true one while they are compiled. -/
def stateAddress : Word := 2

def load (m : Memory) (a : Word) : List Cell → Memory
  | [] => m
  | c :: rest => load (m.insert a c) (a + 1) rest

/-- Copies `n` cells from `source` to `target`, lowest address first, so that a cell written early
can be read later. Stops at the first source address that was never written and gives that address. -/
def copyUp (m : Memory) (target source : Word) : Nat → Memory × Option Word
  | 0 => (m, none)
  | n + 1 =>
    match m[source]? with
    | none => (m, some source)
    | some c => copyUp (m.insert target c) (target + 1) (source + 1) n

def changesSince (m before : Memory) : List (Word × Cell) :=
  m.toList.filter fun (a, c) => before[a]? ≠ some c

def renderAddress (a : Word) : String :=
  let digits := Numeral.digits a.toInt
  String.ofList (List.replicate (6 - digits.length) ' ' ++ digits)

def dump (m : Memory) : String :=
  String.join (m.toList.map fun (a, c) => renderAddress a ++ ": " ++ c.render ++ "\n")

end Memory

end ForthMachine
