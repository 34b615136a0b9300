import ForthMachine.Yaml.Buffer

namespace ForthMachine.Yaml

structure Problem where
  text : String
  line : Option Nat := none
  deriving DecidableEq, Repr

def Problem.message (p : Problem) : String :=
  "yaml: " ++ (match p.line with
    | some n => "line " ++ String.ofList (Nat.toDigits 10 n) ++ ": "
    | none => "") ++ p.text

def isBlank (c : Char) : Bool := c = ' ' || c = '\t'

def isBreak (c : Char) : Bool :=
  c = '\n' || c = '\r' || c = '\u0085' || c = '\u2028' || c = '\u2029'

def isEnd (c : Char) : Bool := c = '\x00'

def isBreakOrEnd (c : Char) : Bool := isBreak c || isEnd c

def isBlankOrEnd (c : Char) : Bool := isBlank c || isBreakOrEnd c

def isNameChar (c : Char) : Bool := c.isAlphanum || c = '_' || c = '-'

def hexValue? (x : Char) : Option Nat :=
  if x.isDigit then some (x.toNat - '0'.toNat)
  else if 'a' ≤ x ∧ x ≤ 'f' then some (x.toNat - 'a'.toNat + 10)
  else if 'A' ≤ x ∧ x ≤ 'F' then some (x.toNat - 'A'.toNat + 10)
  else none

/-- A place in a text: what is left from there, and how much lies before it. -/
structure Cursor where
  buffer : Buffer
  index : Nat := 0
  line : Nat := 0
  column : Nat := 0

abbrev Scan := StateT Cursor (Except Problem)

namespace Scan

/-- Fails at the cursor. The line is told unless it is the first. -/
def fail {α : Type} (text : String) : Scan α := do
  let c ← get
  throw { text, line := if c.line = 0 then none else some (c.line + 1) }

def need (n : Nat) : Scan Unit := do
  let c ← get
  match c.buffer.fill n with
  | .ok buffer => set { c with buffer }
  | .error text => throw { text }

def ahead (n : Nat) : Scan Char := do
  pure ((← get).buffer.ready.getD n '\x00')

def here : Scan Char := ahead 0

def skip : Scan Unit :=
  modify fun c =>
    { c with
      buffer := { c.buffer with ready := c.buffer.ready.tail }
      index := c.index + 1
      column := c.column + 1 }

def skipMany : Nat → Scan Unit
  | 0 => pure ()
  | n + 1 => do
    skip
    skipMany n

/-- Moves over a line break, if there is one, and gives it: most breaks are read as a line feed. Two
characters are ready. -/
def lineBreak : Scan (List Char) := do
  let c ← get
  let leave (n : Nat) (text : List Char) : Scan (List Char) := do
    set { c with
      buffer := { c.buffer with ready := c.buffer.ready.drop n }
      index := c.index + n
      line := c.line + 1
      column := 0 }
    pure text
  match c.buffer.ready with
  | '\r' :: '\n' :: _ => leave 2 ['\n']
  | x :: _ =>
    if x = '\u2028' ∨ x = '\u2029' then leave 1 [x]
    else if isBreak x then leave 1 ['\n']
    else pure []
  | [] => pure []

def fuel : Scan Nat := do
  pure (← get).buffer.bound

def spanAux (p : Char → Bool) : Nat → Scan (List Char)
  | 0 => pure []
  | n + 1 => do
    let x ← here
    if p x && !isEnd x then
      skip
      need 1
      pure (x :: (← spanAux p n))
    else pure []

def span (p : Char → Bool) : Scan (List Char) := do
  need 1
  spanAux p (← fuel)

def skipBlanks : Scan Unit := discard (span isBlank)

def skipComment : Scan Unit := do
  if (← here) = '#' then discard (span fun x => !isBreak x)

def endLine : Scan Unit := do
  skipBlanks
  skipComment
  let x ← here
  if !isBreakOrEnd x then fail "did not find expected comment or line break"
  if isBreak x then
    need 2
    discard lineBreak

/-- Holds where three equal characters at the start of a line mark the start or the end of a
document. Four characters are ready. -/
def isMarker (x : Char) : Scan Bool := do
  let c ← get
  pure (c.column = 0 && (c.buffer.ready.take 3 = [x, x, x]) && isBlankOrEnd (← ahead 3))

def isDocumentMarker : Scan Bool := do
  pure ((← isMarker '-') || (← isMarker '.'))

end Scan

end ForthMachine.Yaml
