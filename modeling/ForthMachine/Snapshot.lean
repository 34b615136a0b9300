import ForthMachine.Diff.Basic
import ForthMachine.Machine.Basic

namespace ForthMachine

namespace State

def snapshot (st : State) : State := { st with dictionary := st.dictionary.normalize }

/-- Two states are the same when pointers, stacks and memory are, and when each name has the same
entries. -/
def sameAs (s t : State) : Bool :=
  s.ip = t.ip && s.nip = t.nip && s.stack = t.stack && s.returns = t.returns &&
    s.dictionary.sameAs t.dictionary && s.memory.toList = t.memory.toList

def dump (st : State) : String :=
  "IP " ++ Numeral.render st.ip ++ " NIP " ++ Numeral.render st.nip ++ "\n"
    ++ "stack:" ++ String.join (st.stack.map (" " ++ ·.render)) ++ "\n"
    ++ "rstack:" ++ String.join (st.returns.map (" " ++ Numeral.render ·)) ++ "\n"
    ++ "dictionary:\n" ++ st.dictionary.dump
    ++ "memory:\n" ++ st.memory.dump

end State

namespace LineDiff

def lines (text : List Char) : List (List Char) :=
  match (Text.lines text).reverse with
  | [] => []
  | last :: earlier =>
    (earlier.map (· ++ ['\n'])).reverse ++ (if last.isEmpty then [] else [last])

/-- The distinct lines in the order in which they first come; `known` are those before, backwards. -/
def distinctAux (known : List (List Char)) : List (List Char) → List (List Char)
  | [] => known.reverse
  | line :: rest => distinctAux (if line ∈ known then known else line :: known) rest

def distinct (lines : List (List Char)) : List (List Char) := distinctAux [] lines

def encode (table lines : List (List Char)) : List Char :=
  [','].intercalate (lines.map fun line => Nat.toDigits 10 (table.idxOf line + 1))

def pieces : List Char → List (List Char)
  | [] => [[]]
  | c :: rest =>
    if c = ',' then [] :: pieces rest
    else match pieces rest with
      | [] => [[c]]
      | piece :: more => (c :: piece) :: more

/-- The lines whose numbers stand between commas. A piece without digits gives no line. -/
def decode (table : List (List Char)) (text : List Char) : List (List Char) :=
  (pieces text).filterMap fun piece => do
    let n ← if piece.isEmpty then none else Numeral.readDigits 10 0 piece
    if n = 0 then none else table[n - 1]?

def render (table : List (List Char)) (e : Diff.Edit Char) : List Char :=
  match e.operation with
  | .keep => []
  | .delete => (decode table e.piece).flatMap (['-', ' '] ++ ·)
  | .insert => (decode table e.piece).flatMap (['+', ' '] ++ ·)

/-- The lines that differ between two texts. The sequences of line numbers are compared as text, so
an edit can cut a number in two; the line that the cut number stands for is shown in its place. -/
def compare (old new : List Char) : String :=
  let oldLines := lines old
  let newLines := lines new
  let table := distinct (oldLines ++ newLines)
  String.ofList ((Diff.compare (encode table oldLines) (encode table newLines)).flatMap
    (render table))

end LineDiff

namespace State

/-- The lines that differ between two states written out; none when they are the same. -/
def diff (old new : State) : String :=
  if old.sameAs new then "" else LineDiff.compare old.dump.toList new.dump.toList

end State

end ForthMachine
