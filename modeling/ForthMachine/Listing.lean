import ForthMachine.Dictionary
import ForthMachine.Memory
import ForthMachine.Text.Blank

/-!
Listings: threaded code as text. A listing is a sequence of items with white space between them; a
backslash starts a comment that runs to the end of the line, and an item stands on one line. Labels
may be used before they are defined: the cells that need them are left open in one pass over the items
and filled in after it.
-/

namespace ForthMachine

/-- Assembled code: cells from `base` on, and the addresses of the labels. -/
structure Program where
  base : Word
  cells : List Cell
  labels : Std.ExtTreeMap String Word

namespace Program

def endAddress (p : Program) : Word := p.base.plus p.cells.length

def load (p : Program) (m : Memory) : Memory := m.load p.base p.cells

end Program

namespace Listing

inductive Fault where
  | incomplete
  | labelExists
  | unknownWord (name : String)
  deriving DecidableEq, Repr

inductive Error where
  | faulty (line : Nat) (fault : Fault)
  /-- Labels that are used and never defined, in the order of their use. -/
  | unresolved (labels : List String)
  deriving DecidableEq, Repr

def Fault.message : Fault → String
  | incomplete => "parse error"
  | labelExists => "label already exists"
  | unknownWord name => "unknown word " ++ Text.quote name

def Error.message : Error → String
  | faulty line fault =>
    "line " ++ String.ofList (Nat.toDigits 10 line) ++ ": " ++ fault.message
  | unresolved labels => "unresolved symbols: " ++ " ".intercalate labels

inductive Directive where
  | label
  /-- A cell with an integer, or with the address of a label. -/
  | cell
  | text
  | lit
  /-- A branching word and the distance to a label, or an integer. -/
  | branch (b : Builtin)
  deriving DecidableEq, Repr

def Directive.ofToken? (token : String) : Option Directive :=
  if token = ".L" then some .label
  else if token = ".C" then some .cell
  else if token = ".S" then some .text
  else if token = Builtin.lit.name then some .lit
  else if token = Builtin.branch.name then some (.branch .branch)
  else if token = Builtin.zeroBranch.name then some (.branch .zeroBranch)
  else none

structure Gap where
  index : Nat
  label : String
  /-- It gets the distance of the label from itself, and not the address. -/
  relative : Bool
  deriving DecidableEq, Repr

def Gap.missing? (labels : Std.ExtTreeMap String Word) (g : Gap) : Option String :=
  if g.label ∈ labels then none else some g.label

def Gap.fill (labels : Std.ExtTreeMap String Word) (base : Word) (cells : Array Cell) (g : Gap) :
    Array Cell :=
  match labels[g.label]? with
  | none => cells
  | some address =>
    cells.setIfInBounds g.index
      (if g.relative then .int (address - base.plus g.index) else .addr address)

structure Assembly where
  here : Word
  cells : Array Cell := #[]
  gaps : Array Gap := #[]
  labels : Std.ExtTreeMap String Word := ∅

namespace Assembly

def base (a : Assembly) : Word := a.here - Int64.ofNat a.cells.size

def push (a : Assembly) (c : Cell) : Assembly :=
  { a with here := a.here + 1, cells := a.cells.push c }

def await (a : Assembly) (label : String) (relative : Bool) : Assembly :=
  { a with gaps := a.gaps.push { index := a.cells.size, label, relative } }.push .nil

def define (a : Assembly) (label : String) : Except Fault Assembly :=
  if label ∈ a.labels then .error .labelExists
  else .ok { a with labels := a.labels.insert label a.here }

def operand (a : Assembly) (x : String) : Assembly :=
  match Numeral.prefixed? x.toList with
  | some n => a.push (.int n)
  | none =>
    match a.labels[x]? with
    | some address => a.push (.addr address)
    | none => a.await x false

def target (a : Assembly) (x : String) : Assembly :=
  match Numeral.prefixed? x.toList with
  | some n => a.push (.int n)
  -- a distance is filled in at the end, also where the label is known already
  | none => a.await x true

def word (vocabulary : String → Option Cell) (a : Assembly) (name : String) :
    Except Fault Assembly :=
  match vocabulary name with
  | some c => .ok (a.push c)
  | none => .error (.unknownWord name)

def directive (vocabulary : String → Option Cell) (a : Assembly) (x : String) :
    Directive → Except Fault Assembly
  | .label => a.define x
  | .cell => .ok (a.operand x)
  | .text => .ok (a.push (.text x))
  | .lit => (a.word vocabulary Builtin.lit.name).map (·.operand x)
  | .branch b => (a.word vocabulary b.name).map (·.target x)

def single (vocabulary : String → Option Cell) (a : Assembly) (token : String) :
    Except Fault Assembly :=
  match Numeral.prefixed? token.toList with
  | some n => .ok (a.push (.int n))
  | none => a.word vocabulary token

def line (vocabulary : String → Option Cell) (a : Assembly) : List String → Except Fault Assembly
  | [] => .ok a
  | token :: rest =>
    match Directive.ofToken? token with
    | none =>
      match a.single vocabulary token with
      | .ok a => line vocabulary a rest
      | .error fault => .error fault
    | some d =>
      match rest with
      | [] => .error .incomplete
      -- the operand may be any token, also one that starts a directive
      | x :: rest =>
        match a.directive vocabulary x d with
        | .ok a => line vocabulary a rest
        | .error fault => .error fault

def lines (vocabulary : String → Option Cell) (a : Assembly) (n : Nat) :
    List (List String) → Except Error Assembly
  | [] => .ok a
  | tokens :: rest =>
    match a.line vocabulary tokens with
    | .ok a => lines vocabulary a (n + 1) rest
    | .error fault => .error (.faulty n fault)

def resolved (a : Assembly) : Array Cell := a.gaps.foldl (Gap.fill a.labels a.base) a.cells

/-- The program at `base`, unless a label is missing. -/
def finish (base : Word) (a : Assembly) : Except Error Program :=
  match a.gaps.toList.filterMap (Gap.missing? a.labels) with
  | [] => .ok { base, cells := a.resolved.toList, labels := a.labels }
  | missing => .error (.unresolved missing)

end Assembly

def tokens (line : List Char) : List String :=
  (Text.fields (line.takeWhile (· ≠ '\\'))).map String.ofList

/-- The words that a listing can use: those visible in a dictionary, then the built-in ones. -/
def vocabulary (dictionary : Dictionary) (name : String) : Option Cell :=
  match dictionary.find? name with
  | some e => some (.ref e.code)
  | none => (Builtin.ofName? name).map Cell.builtin

def assemble (source : String) (dictionary : Dictionary) (base : Word) : Except Error Program :=
  let assembly : Assembly := { here := base }
  (assembly.lines (vocabulary dictionary) 1 ((Text.lines source.toList).map tokens)).bind
    (Assembly.finish base)

end Listing

end ForthMachine
