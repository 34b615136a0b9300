import ForthMachine.Yaml.Cursor

namespace ForthMachine.Yaml

/-- What lies between two runs of other characters: blanks within a line, or line breaks, of which the
first and the later ones are kept apart. -/
structure Gap where
  blanks : List Char := []
  first : List Char := []
  later : List Char := []
  broken : Bool := false

namespace Gap

def isEmpty (g : Gap) : Bool := g.blanks.isEmpty && !g.broken

def fold (g : Gap) : List Char :=
  if g.broken then
    if g.first.head? = some '\n' then
      if g.later.isEmpty then [' '] else g.later
    else g.first ++ g.later
  else g.blanks

/-- Reads blanks and line breaks. Where a least column is given, a tab before it at the start of a
line is refused. -/
def read (leastColumn : Option Int) : Nat → Gap → Scan Gap
  | 0, g => pure g
  | fuel + 1, g => do
    let x ← Scan.here
    if isBlank x then
      let column := (← get).column
      if g.broken && x = '\t' && leastColumn.any (fun least => (column : Int) < least) then
        Scan.fail "found a tab character that violates indentation"
      Scan.skip
      Scan.need 1
      read leastColumn fuel (if g.broken then g else { g with blanks := g.blanks ++ [x] })
    else if isBreak x then
      Scan.need 2
      let text ← Scan.lineBreak
      Scan.need 1
      read leastColumn fuel
        (if g.broken then { g with later := g.later ++ text } else { first := text, broken := true })
    else pure g

end Gap

namespace Scalar

def plainRun (inFlow : Bool) : Nat → Scan (List Char)
  | 0 => pure []
  | fuel + 1 => do
    let x ← Scan.here
    let isColon := x = ':' && isBlankOrEnd (← Scan.ahead 1)
    if isBlankOrEnd x || isColon || (inFlow && ",?[]\x7b\x7d".contains x) then pure []
    else
      Scan.skip
      Scan.need 2
      pure (x :: (← plainRun inFlow fuel))

/-- Reads what a plain scalar has after `gap`. Lines that go on with it have at least `indent` columns
before them. Tells whether line breaks were read after its end. -/
def plainAux (inFlow : Bool) (indent : Int) : Nat → Gap → Scan (List Char × Bool)
  | 0, gap => pure ([], gap.broken)
  | fuel + 1, gap => do
    Scan.need 4
    if (← Scan.isDocumentMarker) || (← Scan.here) = '#' then pure ([], gap.broken)
    else
      let run ← plainRun inFlow (← Scan.fuel)
      if run.isEmpty then pure ([], gap.broken)
      else
        let next ← Gap.read (some indent) (← Scan.fuel) {}
        let column := (← get).column
        let (rest, broken) ←
          if next.isEmpty || (!inFlow && column < indent) then pure ([], next.broken)
          else plainAux inFlow indent fuel next
        pure (gap.fold ++ run ++ rest, broken)

/-- Reads a plain scalar. Tells whether line breaks were read after its end. -/
def plain (inFlow : Bool) (indent : Int) : Scan (List Char × Bool) := do
  plainAux inFlow indent (← Scan.fuel) {}

def escape? (x : Char) : Option (Char ⊕ Nat) :=
  match x with
  | '0' => some (.inl '\x00')
  | 'a' => some (.inl '\x07')
  | 'b' => some (.inl '\x08')
  | 't' | '\t' => some (.inl '\t')
  | 'n' => some (.inl '\n')
  | 'v' => some (.inl '\x0b')
  | 'f' => some (.inl '\x0c')
  | 'r' => some (.inl '\r')
  | 'e' => some (.inl '\x1b')
  | ' ' => some (.inl ' ')
  | '"' => some (.inl '"')
  | '\x27' => some (.inl '\x27')
  | '\\' => some (.inl '\\')
  | 'N' => some (.inl '\u0085')
  | '_' => some (.inl '\u00a0')
  | 'L' => some (.inl '\u2028')
  | 'P' => some (.inl '\u2029')
  | 'x' => some (.inr 2)
  | 'u' => some (.inr 4)
  | 'U' => some (.inr 8)
  | _ => none

def codeEscape (n : Nat) : Scan Char := do
  Scan.need n
  match ((← get).buffer.ready.take n).mapM hexValue? with
  | none => Scan.fail "did not find expected hexdecimal number"
  | some digits =>
    let code := digits.foldl (fun acc d => acc * 16 + d) 0
    if digits.length < n then Scan.fail "did not find expected hexdecimal number"
    if !code.isValidChar then Scan.fail "found invalid Unicode character escape code"
    Scan.skipMany n
    pure (Char.ofNat code)

inductive Piece where
  | char (c : Char)
  | hiddenBreak
  /-- A blank, a line break, the closing quote or the end of the text, which stays. -/
  | other
  deriving DecidableEq, Repr

def escaped : Scan Piece := do
  let y ← Scan.ahead 1
  if isBreak y then
    Scan.need 3
    Scan.skip
    discard Scan.lineBreak
    pure .hiddenBreak
  else match escape? y with
    | none => Scan.fail "found unknown escape character"
    | some (.inl z) =>
      Scan.skipMany 2
      pure (.char z)
    | some (.inr n) =>
      Scan.skipMany 2
      pure (.char (← codeEscape n))

def piece (single : Bool) : Scan Piece := do
  let x ← Scan.here
  if isBlankOrEnd x then pure .other
  else if single && x = '\x27' then
    if (← Scan.ahead 1) = '\x27' then
      Scan.skipMany 2
      pure (.char x)
    else pure .other
  else if !single && x = '"' then pure .other
  else if !single && x = '\\' then escaped
  else
    Scan.skip
    pure (.char x)

/-- Reads the characters of a quoted scalar up to a blank, a line break or the closing quote. Tells
whether a backslash before a line break ended them. -/
def quotedRun (single : Bool) : Nat → Scan (List Char × Bool)
  | 0 => pure ([], false)
  | fuel + 1 => do
    match ← piece single with
    | .other => pure ([], false)
    | .hiddenBreak => pure ([], true)
    | .char x =>
      Scan.need 2
      let (rest, broken) ← quotedRun single fuel
      pure (x :: rest, broken)

def quotedAux (single : Bool) : Nat → Scan (List Char)
  | 0 => pure []
  | fuel + 1 => do
    Scan.need 4
    if ← Scan.isDocumentMarker then Scan.fail "found unexpected document indicator"
    if isEnd (← Scan.here) then Scan.fail "found unexpected end of stream"
    let (run, broken) ← quotedRun single (← Scan.fuel)
    Scan.need 1
    if (← Scan.here) = (if single then '\x27' else '"') then
      Scan.skip
      pure run
    else
      let gap ← Gap.read none (← Scan.fuel) { broken }
      pure (run ++ gap.fold ++ (← quotedAux single fuel))

def quoted (single : Bool) : Scan (List Char) := do
  Scan.skip
  quotedAux single (← Scan.fuel)

inductive Chomping where
  | strip
  | clip
  | keep
  deriving DecidableEq, Repr

def chomping? : Char → Option Chomping
  | '+' => some .keep
  | '-' => some .strip
  | _ => none

/-- Reads the digit that tells the indentation of a block; 0 when there is none. -/
def indentDigit : Scan Nat := do
  Scan.need 1
  let x ← Scan.here
  if x = '0' then Scan.fail "found an indentation indicator equal to 0"
  if x.isDigit then
    Scan.skip
    pure (x.toNat - '0'.toNat)
  else pure 0

def chompingSign? : Scan (Option Chomping) := do
  Scan.need 1
  match chomping? (← Scan.here) with
  | some chomping =>
    Scan.skip
    pure (some chomping)
  | none => pure none

def blockHeader : Scan (Chomping × Nat) := do
  match ← chompingSign? with
  | some chomping => pure (chomping, ← indentDigit)
  | none =>
    let digit ← indentDigit
    if digit = 0 then pure (.clip, 0)
    else pure ((← chompingSign?).getD .clip, digit)

def skipIndent (indent : Nat) : Nat → Scan Unit
  | 0 => pure ()
  | fuel + 1 => do
    if (indent = 0 || (← get).column < indent) && (← Scan.here) = ' ' then
      Scan.skip
      Scan.need 1
      skipIndent indent fuel

/-- Reads empty lines and the indentation of the line after them. While the indentation is not known
it is 0. Gives the line breaks and the greatest column reached. -/
def blockBreaks (indent : Nat) : Nat → List Char → Nat → Scan (List Char × Nat)
  | 0, breaks, most => pure (breaks, most)
  | fuel + 1, breaks, most => do
    Scan.need 1
    skipIndent indent (← Scan.fuel)
    let column := (← get).column
    let x ← Scan.here
    if (indent = 0 || column < indent) && x = '\t' then
      Scan.fail "found a tab character where an indentation space is expected"
    if isBreak x then
      Scan.need 2
      let text ← Scan.lineBreak
      blockBreaks indent fuel (breaks ++ text) (max most column)
    else pure (breaks, max most column)

/-- What stands between the last line of a block and the next one: the line break that ends it and
further line breaks; and whether the last line starts with a blank. -/
structure Seam where
  first : List Char := []
  later : List Char := []
  startsBlank : Bool := false

/-- The text that a block has between two lines. Unless the block is literal, a line break between
lines that do not start with a blank is folded. -/
def Seam.join (literal : Bool) (e : Seam) (startsBlank : Bool) : List Char :=
  if !literal && !e.startsBlank && !startsBlank && e.first.head? = some '\n' then
    if e.later.isEmpty then [' '] else e.later
  else e.first ++ e.later

/-- Reads the lines of a block with `indent` columns before them. Gives their text and what stands
after it. -/
def blockLines (literal : Bool) (indent : Nat) : Nat → Seam → Scan (List Char × Seam)
  | 0, e => pure ([], e)
  | fuel + 1, e => do
    let x ← Scan.here
    if (← get).column = indent && !isEnd x then
      let line ← Scan.span fun x => !isBreak x
      Scan.need 2
      let first ← Scan.lineBreak
      let (later, _) ← blockBreaks indent (← Scan.fuel) [] 0
      let (rest, last) ←
        blockLines literal indent fuel { first, later, startsBlank := isBlank x }
      pure (e.join literal (isBlank x) ++ line ++ rest, last)
    else pure ([], e)

/-- Reads a block from its mark on; `outer` is the indentation of what it stands in. -/
def block (literal : Bool) (outer : Int) : Scan (List Char) := do
  Scan.skip
  let (chomping, digit) ← blockHeader
  Scan.endLine
  let indent := if digit = 0 then 0 else (max outer 0).toNat + digit
  let (later, most) ← blockBreaks indent (← Scan.fuel) [] 0
  -- without a digit the lines up to the first text set the indentation
  let indent := if indent = 0 then max (max most (outer + 1).toNat) 1 else indent
  Scan.need 1
  let (text, e) ← blockLines literal indent (← Scan.fuel) { later }
  match chomping with
  | .strip => pure text
  | .clip => pure (text ++ e.first)
  | .keep => pure (text ++ e.first ++ e.later)

end Scalar

end ForthMachine.Yaml
