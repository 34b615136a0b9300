import ForthMachine.Text.Numeral
import ForthMachine.Text.Quoted
import ForthMachine.Vocabulary

namespace ForthMachine

inductive Cell where
  | nil
  | int (n : Word)
  /-- A character code, which need not be a valid code point. -/
  | char (code : Int32)
  | text (s : String)
  | addr (a : Word)
  /-- A primitive; `none` is a primitive that was never filled in. -/
  | prim (p : Option Primitive)
  /-- A reference to the word whose code field is at an address. -/
  | ref (code : Word)
  deriving DecidableEq, Repr

namespace Cell

def builtin (b : Builtin) : Cell := .prim (some (.builtin b))

def tag : Cell → Nat
  | nil => 0
  | int _ => 1
  | char _ => 2
  | text _ => 3
  | addr _ => 4
  | prim _ => 5
  | ref _ => 6

def tagNames : List String := ["nil", "int", "char", "text", "addr", "prim", "ref"]

def tagName (n : Nat) : String :=
  tagNames[n]?.getD ("kind(" ++ String.ofList (Nat.toDigits 10 n) ++ ")")

/-- The number in a cell: integers, characters, addresses and references have one. -/
def number? : Cell → Option Word
  | int n => some n
  | char code => some code.toInt64
  | addr a => some a
  | ref code => some code
  | _ => none

def address? : Cell → Option Word
  | int n => some n
  | addr a => some a
  | _ => none

/-- The code point in a character or an integer, up to U+10FFFF. Surrogates count. -/
def code? : Cell → Option Nat
  | char code => if 0 ≤ code ∧ code ≤ 0x10FFFF then some code.toInt.toNat else none
  | int n => if 0 ≤ n ∧ n ≤ 0x10FFFF then some n.toInt.toNat else none
  | _ => none

def text? : Cell → Option String
  | text s => some s
  | _ => none

def primitive? : Cell → Option Primitive
  | prim p => p
  | _ => none

def ref? : Cell → Option Word
  | ref code => some code
  | _ => none

def token? : Cell → Option Word
  | ref code => some code
  | c => c.address?

/-- A flag is false when it is the empty cell or holds the number 0. -/
def isFalse : Cell → Bool
  | nil => true
  | c => c.number? = some 0

def ofBool (b : Bool) : Cell := .int (if b then -1 else 0)

/-- Two cells with numbers are the same when the numbers are; other cells when they are identical. -/
def sameAs (x y : Cell) : Bool :=
  match x.number?, y.number? with
  | some m, some n => m = n
  | _, _ => x = y

def render : Cell → String
  | nil => "nil"
  | int n => Numeral.render n
  | char code => Text.quoteCode code.toInt
  | text s => Text.quote s
  | addr a => "@" ++ Numeral.render a
  | prim none => "<prim ?>"
  | prim (some p) => "<" ++ p.name ++ ">"
  | ref code => "&" ++ Numeral.render code

end Cell

end ForthMachine
