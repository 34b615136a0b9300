import ForthMachine.Word

namespace ForthMachine.Numeral

def digits (n : Int) : List Char :=
  if n < 0 then '-' :: Nat.toDigits 10 n.natAbs else Nat.toDigits 10 n.natAbs

def render (w : Word) : String := String.ofList (digits w.toInt)

/-- The value of a digit; letters of either case follow the nine. -/
def digitValue? (c : Char) : Option Nat :=
  if '0' ≤ c ∧ c ≤ '9' then some (c.toNat - '0'.toNat)
  else if 'a' ≤ c ∧ c ≤ 'z' then some (c.toNat - 'a'.toNat + 10)
  else if 'A' ≤ c ∧ c ≤ 'Z' then some (c.toNat - 'A'.toNat + 10)
  else none

def digitBelow? (base : Nat) (c : Char) : Option Nat :=
  (digitValue? c).filter (· < base)

def readDigits (base : Nat) : Nat → List Char → Option Nat
  | acc, [] => some acc
  | acc, c :: rest => (digitBelow? base c).bind fun d => readDigits base (acc * base + d) rest

def splitSign : List Char → Bool × List Char
  | '+' :: rest => (false, rest)
  | '-' :: rest => (true, rest)
  | cs => (false, cs)

def signed? (negative : Bool) (magnitude : Nat) : Option Word :=
  Word.ofInt? (if negative then -(magnitude : Int) else magnitude)

/-- Reads a decimal: an optional sign, then one or more of the ten digits, in the range of a word. -/
def decimal? (cs : List Char) : Option Word :=
  let (negative, ds) := splitSign cs
  if ds.isEmpty then none else (readDigits 10 0 ds).bind (signed? negative)

/-- The base that a numeral announces, the characters after the announcement, and whether a digit
or a base mark was taken off. A leading zero announces octal. -/
def splitBase : List Char → Nat × List Char × Bool
  | '0' :: mark :: d :: rest =>
    if mark = 'b' ∨ mark = 'B' then (2, d :: rest, true)
    else if mark = 'o' ∨ mark = 'O' then (8, d :: rest, true)
    else if mark = 'x' ∨ mark = 'X' then (16, d :: rest, true)
    else (8, mark :: d :: rest, true)
  | '0' :: rest => (8, rest, true)
  | cs => (10, cs, false)

/-- Every underscore stands between two digits; `afterDigit` tells what stands before the text. -/
def wellSeparated (afterDigit : Bool) : List Char → Bool
  | [] => true
  | '_' :: rest => afterDigit && !rest.isEmpty && wellSeparated false rest
  | _ :: rest => wellSeparated true rest

def prefixed? (cs : List Char) : Option Word :=
  let (negative, unsigned) := splitSign cs
  if unsigned.isEmpty then none
  else
    let (base, body, afterDigit) := splitBase unsigned
    if wellSeparated afterDigit body then
      (readDigits base 0 (body.filter (· ≠ '_'))).bind (signed? negative)
    else none

end ForthMachine.Numeral
