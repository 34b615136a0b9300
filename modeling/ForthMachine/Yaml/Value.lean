import ForthMachine.Text.Base64
import ForthMachine.Text.Binary64
import ForthMachine.Text.Numeral
import ForthMachine.Yaml.Node
import ForthMachine.Yaml.Timestamp

namespace ForthMachine.Yaml

inductive Value where
  | null
  | bool (b : Bool)
  | int (n : Int)
  | infinity (negative : Bool)
  | notANumber
  | float (x : Text.Binary64)
  | timestamp
  | text (s : String)
  | binary (bytes : Octets)
  deriving DecidableEq, Repr

namespace Value

def tag : Value → Octets
  | null => Tag.ofType "null"
  | bool _ => Tag.ofType "bool"
  | int _ => Tag.ofType "int"
  | infinity _ | notANumber | float _ => Tag.ofType "float"
  | timestamp => Tag.ofType "timestamp"
  | text _ => Tag.ofType "str"
  | binary _ => Tag.ofType "binary"

def named? (s : String) : Option Value :=
  if ["", "~", "null", "Null", "NULL"].contains s then some .null
  else if ["y", "Y", "yes", "Yes", "YES", "true", "True", "TRUE", "on", "On", "ON"].contains s then
    some (.bool true)
  else if ["n", "N", "no", "No", "NO", "false", "False", "FALSE", "off", "Off", "OFF"].contains s
    then some (.bool false)
  else if [".nan", ".NaN", ".NAN"].contains s then some .notANumber
  else if [".inf", ".Inf", ".INF", "+.inf", "+.Inf", "+.INF"].contains s then
    some (.infinity false)
  else if ["-.inf", "-.Inf", "-.INF"].contains s then some (.infinity true)
  else none

def exponent? : List Char → Option Int
  | [] => some 0
  | e :: rest =>
    if e = 'e' || e = 'E' then
      let (negative, digits) := Numeral.splitSign rest
      if digits.isEmpty then none
      else (Numeral.readDigits 10 0 digits).map fun n => if negative then -(n : Int) else n
    else none

/-- Reads a decimal fraction; one that is too large for a number is none. -/
def decimal? (cs : List Char) : Option Text.Binary64 := do
  let (negative, cs) := Numeral.splitSign cs
  let whole := cs.takeWhile Char.isDigit
  let (fraction, cs) := match cs.dropWhile Char.isDigit with
    | '.' :: rest => (rest.takeWhile Char.isDigit, rest.dropWhile Char.isDigit)
    | rest => ([], rest)
  let digits := whole ++ fraction
  guard (!digits.isEmpty)
  let exponent ← exponent? cs
  let mantissa ← Numeral.readDigits 10 0 digits
  Text.Binary64.ofDecimal? negative mantissa (exponent - fraction.length)

/-- Reads an integer with an optional sign and base mark, up to 64 bits. -/
def integer? (cs : List Char) : Option Int :=
  let (negative, unsigned) := Numeral.splitSign cs
  let (base, body, _) := Numeral.splitBase unsigned
  if unsigned.isEmpty then none
  else ofMagnitude (negative, unsigned.length = cs.length) (Numeral.readDigits base 0 body)
where
  /-- The integer with a sign and a magnitude; one without a sign may use all 64 bits. -/
  ofMagnitude (sign : Bool × Bool) (magnitude : Option Nat) : Option Int := do
    let n ← magnitude
    let value : Int := if sign.1 then -(n : Int) else n
    guard (-Word.bound ≤ value && (value < Word.bound || (sign.2 && value < 2 * Word.bound)))
    pure value

def binary? : List Char → Option Int
  | '0' :: 'b' :: rest =>
    let (negative, digits) := Numeral.splitSign rest
    if digits.isEmpty then none
    else integer?.ofMagnitude (negative, digits.length = rest.length) (Numeral.readDigits 2 0 digits)
  | '-' :: '0' :: 'b' :: digits =>
    if digits.isEmpty then none
    else integer?.ofMagnitude (true, false) (Numeral.readDigits 2 0 digits)
  | _ => none

/-- Reads a number. Underscores do not count. -/
def number? (text : List Char) : Option Value :=
  let plain := text.filter (· ≠ '_')
  match integer? plain with
  | some n => some (.int n)
  | none =>
    match decimal? plain with
    | some x => some (.float x)
    | none => (binary? plain).map .int

/-- What a scalar looks like; timestamps count only where `dated` holds. -/
def ofText (dated : Bool) (s : String) : Value :=
  match named? s with
  | some v => v
  | none =>
    match s.toList with
    | [] => .null
    | x :: rest =>
      if x.isDigit || x = '+' || x = '-' then
        if dated && Timestamp.isTimestamp (x :: rest) then .timestamp
        else (number? (x :: rest)).getD (.text s)
      else if x = '.' then
        match fraction? (x :: rest) with
        | some f => .float f
        | none => .text s
      else .text s
where
  /-- Reads a fraction that starts with its point; underscores may stand between digits. -/
  fraction? (cs : List Char) : Option Text.Binary64 :=
    if isSeparated false cs then decimal? (cs.filter (· ≠ '_')) else none
  isSeparated (afterDigit : Bool) : List Char → Bool
    | [] => true
    | '_' :: rest => afterDigit && rest.head?.any Char.isDigit && isSeparated false rest
    | x :: rest => isSeparated x.isDigit rest

def isResolvable (tag : Octets) : Bool :=
  tag.isEmpty || ["bool", "int", "float", "null", "timestamp"].any (Tag.ofType · = tag)

def toFloat? : Value → Option Text.Binary64
  | .int n => if n < Word.bound then Text.Binary64.ofDecimal? (n < 0) n.natAbs 0 else none
  | _ => none

def misfit (s : String) (tag : Octets) (v : Value) : Problem :=
  { text := "cannot decode " ++ (Tag.short v.tag).display ++ " `" ++ s ++ "` as a "
      ++ (Tag.short tag).display }

/-- Reads a scalar as what it looks like, which a tag has to fit. An integer fits as a float. -/
def ofTag (s : String) (tag : Octets) : Except Problem (Octets × Value) :=
  let v := ofText (tag.isEmpty || tag = Tag.ofType "timestamp") s
  if tag.isEmpty || tag = v.tag then .ok (v.tag, v)
  else if tag = Tag.ofType "float" then
    match v.toFloat? with
    | some x => .ok (tag, .float x)
    | none => .error (misfit s tag v)
  else .error (misfit s tag v)

/-- The meaning of a scalar. One that is neither implicit nor tagged is a text, and so is one with a
tag that is not a standard one; one tagged as binary holds bytes in base 64. -/
def resolve (s : String) (tag : Octets) (isImplicit : Bool) : Except Problem (Octets × Value) :=
  if tag.isEmpty && !isImplicit then .ok (Tag.ofType "str", .text s)
  else if tag = Tag.ofType "binary" then
    match Text.Base64.decode? s.toList with
    | some bytes => .ok (tag, .binary bytes)
    | none => .error { text := "!!binary value contains invalid base64 data" }
  else if isResolvable tag then ofTag s tag
  else .ok (tag, .text s)

end Value

end ForthMachine.Yaml
