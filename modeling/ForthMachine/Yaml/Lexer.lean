import ForthMachine.Yaml.Token

/-!
How tokens are found, one after the other and no more than are asked for. That a token starts a key is
seen only at the colon after it, so the tokens that announce a key are put before tokens already
found, and a token that may start one is held back. A key without a question mark lies on one line and
is short.
-/

namespace ForthMachine.Yaml

structure PossibleKey where
  required : Bool
  index : Nat
  line : Nat
  column : Nat

structure Level where
  /-- The number of the token that may start a key, or else of the bracket. -/
  number : Nat := 0
  key : Option PossibleKey := none
  /-- Holds when the token of that number is held back as long as it may start a key. -/
  isHeld : Bool := false

structure Lexer where
  cursor : Cursor
  queue : List Token := []
  taken : Nat := 0
  /-- What is known about keys inside the innermost brackets. -/
  level : Level := {}
  outer : List Level := []
  /-- The column of the innermost block, -1 outside all blocks. -/
  indent : Int := -1
  indents : List Int := []
  keyAllowed : Bool := true

namespace Lexer

def inFlow (l : Lexer) : Bool := !l.outer.isEmpty

def nextNumber (l : Lexer) : Nat := l.taken + l.queue.length

def isStale (l : Lexer) (key : PossibleKey) : Bool :=
  key.line < l.cursor.line || key.index + 1024 < l.cursor.index

def maxDepth : Nat := 10000

end Lexer

abbrev Lex := StateT Lexer (Except Problem)

namespace Lex

def scan {α : Type} (x : Scan α) : Lex α := do
  let l ← get
  match x.run l.cursor with
  | .ok (a, cursor) =>
    set { l with cursor }
    pure a
  | .error p => throw p

def fail {α : Type} (text : String) : Lex α := scan (Scan.fail text)

def fuel : Lex Nat := scan Scan.fuel

def push (t : Token) : Lex Unit := modify fun l => { l with queue := l.queue ++ [t] }

def token (x : Scan Token.Kind) : Lex Unit := do
  let line := (← get).cursor.line
  let kind ← scan x
  push { kind, line }

def sign (kind : Token.Kind) (width : Nat) : Lex Unit :=
  token do
    Scan.skipMany width
    pure kind

/-- Puts a token before the token of a number. If that was taken already, it goes to the end. -/
def insert (number : Nat) (t : Token) : Lex Unit :=
  modify fun l =>
    let place := if l.taken ≤ number then number - l.taken else l.queue.length
    { l with queue := l.queue.take place ++ t :: l.queue.drop place }

def allowKey (allowed : Bool) : Lex Unit := modify fun l => { l with keyAllowed := allowed }

def missingColon {α : Type} : Lex α := fail "could not find expected ':'"

def dropKey : Lex Unit := do
  match (← get).level.key with
  | some key =>
    if key.required then missingColon
    modify fun l => { l with level.key := none }
  | none => pure ()

def saveKey : Lex Unit := do
  if (← get).keyAllowed then
    dropKey
    modify fun l =>
      let key : PossibleKey :=
        { required := !l.inFlow && l.indent = l.cursor.column
          index := l.cursor.index
          line := l.cursor.line
          column := l.cursor.column }
      { l with level := { number := l.nextNumber, key := some key, isHeld := true } }

def takeKey : Lex (Option PossibleKey) := do
  let l ← get
  set { l with level.key := none }
  match l.level.key with
  | some key =>
    if l.isStale key then if key.required then missingColon else pure none
    else pure (some key)
  | none => pure none

def closeBlocks (column : Int) : Lex Unit :=
  modify fun l => if l.inFlow then l else go l l.indents
where
  /-- Ends blocks, of which those around the innermost one are given. -/
  go (l : Lexer) : List Int → Lexer
    | [] => l
    | outer :: rest =>
      if column < l.indent then
        let t : Token := { kind := .blockEnd, line := l.cursor.line }
        go { l with queue := l.queue ++ [t], indent := outer, indents := rest } rest
      else l

/-- Starts a block at a column that is greater than that of the block around it; its token goes before
that of the given number. -/
def openBlock (column number line : Nat) (kind : Token.Kind) : Lex Unit := do
  let l ← get
  if !l.inFlow && l.indent < column then
    if Lexer.maxDepth ≤ l.indents.length then fail "exceeded max depth of 10000"
    set { l with indents := l.indent :: l.indents, indent := column }
    insert number { kind, line }

def openBlockHere (kind : Token.Kind) : Lex Unit := do
  let l ← get
  openBlock l.cursor.column l.nextNumber l.cursor.line kind

/-- Moves over blanks, comments and line breaks to the next token. A tab is no blank where a key may
start. At the start of a line one character is left out, whatever it is, if the first character of the
buffer is a byte order mark. -/
def skipToToken : Nat → Lex Unit
  | 0 => pure ()
  | fuel + 1 => do
    let l ← get
    let isBroken ← scan do
      Scan.need 1
      let c ← get
      if c.column = 0 && c.buffer.first = some '\uFEFF' then Scan.skip
      discard (Scan.span fun x => x = ' ' || (x = '\t' && (l.inFlow || !l.keyAllowed)))
      Scan.skipComment
      let isBroken := isBreak (← Scan.here)
      if isBroken then
        Scan.need 2
        discard Scan.lineBreak
      pure isBroken
    if isBroken then
      if !l.inFlow then allowKey true
      skipToToken fuel

def streamEnd : Lex Unit := do
  -- the last line may lack its break
  modify fun l =>
    let c := l.cursor
    { l with cursor := if c.column = 0 then c else { c with column := 0, line := c.line + 1 } }
  closeBlocks (-1)
  dropKey
  allowKey false
  sign .streamEnd 0

def documentMarker (kind : Token.Kind) : Lex Unit := do
  closeBlocks (-1)
  dropKey
  allowKey false
  sign kind 3

def directive : Lex Unit := do
  closeBlocks (-1)
  dropKey
  allowKey false
  token Token.directive

def openBracket (kind : Token.Kind) : Lex Unit := do
  saveKey
  let l ← get
  if Lexer.maxDepth ≤ l.outer.length then fail "exceeded max depth of 10000"
  set { l with level := { number := l.nextNumber }, outer := l.level :: l.outer }
  allowKey true
  sign kind 1

/-- A closing bracket. If no key could start inside the brackets, the opening one is held back no
longer. -/
def closeBracket (kind : Token.Kind) : Lex Unit := do
  dropKey
  modify fun l =>
    match l.outer with
    | [] => l
    | level :: outer =>
      { l with
        level := { level with isHeld := level.isHeld && level.number ≠ l.level.number }
        outer }
  allowKey false
  sign kind 1

def flowEntry : Lex Unit := do
  dropKey
  allowKey true
  sign .flowEntry 1

def blockEntry : Lex Unit := do
  let l ← get
  if !l.inFlow && !l.keyAllowed then
    fail "block sequence entries are not allowed in this context"
  openBlockHere .blockSequenceStart
  dropKey
  allowKey true
  sign .blockEntry 1

def keyMark : Lex Unit := do
  let l ← get
  if !l.inFlow && !l.keyAllowed then fail "mapping keys are not allowed in this context"
  openBlockHere .blockMappingStart
  dropKey
  allowKey !l.inFlow
  sign .key 1

/-- A colon before a value. Where a key may have started, its token is put there. -/
def valueMark : Lex Unit := do
  let l ← get
  match ← takeKey with
  | some key =>
    -- the block starts before its key, so its token goes to the same place after that of the key
    insert l.level.number { kind := .key, line := key.line }
    openBlock key.column l.level.number key.line .blockMappingStart
    allowKey false
  | none =>
    if !l.inFlow && !l.keyAllowed then fail "mapping values are not allowed in this context"
    openBlockHere .blockMappingStart
    allowKey !l.inFlow
  sign .value 1

def keyToken (x : Scan Token.Kind) : Lex Unit := do
  saveKey
  allowKey false
  token x

def blockScalar (literal : Bool) : Lex Unit := do
  dropKey
  allowKey true
  let indent := (← get).indent
  token do pure (.scalar (String.ofList (← Scalar.block literal indent)) false)

/-- A plain scalar. After line breaks a key may start again. -/
def plainScalar : Lex Unit := do
  saveKey
  let l ← get
  let (text, isBroken) ← scan (Scalar.plain l.inFlow (l.indent + 1))
  allowKey isBroken
  push { kind := .scalar (String.ofList text) true, line := l.cursor.line }

def isIndicator (x : Char) : Bool := "-?:,[]\x7b\x7d#&*!|>'\"%@`".contains x

def dispatch (x y : Char) (inFlow : Bool) : Lex Unit :=
  let blankFollows := isBlankOrEnd y
  if x = '[' then openBracket .flowSequenceStart
  else if x = '\x7b' then openBracket .flowMappingStart
  else if x = ']' then closeBracket .flowSequenceEnd
  else if x = '\x7d' then closeBracket .flowMappingEnd
  else if x = ',' then flowEntry
  else if x = '-' && blankFollows then blockEntry
  else if x = '?' && (inFlow || blankFollows) then keyMark
  else if x = ':' && (inFlow || blankFollows) then valueMark
  else if x = '*' then keyToken do pure (.reference (← Token.anchorName))
  else if x = '&' then keyToken do pure (.anchor (← Token.anchorName))
  else if x = '!' then
    keyToken do
      let (handle, suffix) ← Tag.read
      pure (.tag handle suffix)
  else if x = '|' && !inFlow then blockScalar true
  else if x = '>' && !inFlow then blockScalar false
  else if x = '\x27' || x = '"' then
    keyToken do pure (.scalar (String.ofList (← Scalar.quoted (x = '\x27'))) false)
  else if !(isBlankOrEnd x || isIndicator x) || (x = '-' && !isBlank y)
      || (!inFlow && (x = '?' || x = ':') && !blankFollows) then
    plainScalar
  else fail "found character that cannot start any token"

def next : Lex Unit := do
  scan (Scan.need 1)
  skipToToken (← fuel)
  closeBlocks (← get).cursor.column
  scan (Scan.need 4)
  let l ← get
  let x ← scan Scan.here
  if isEnd x then streamEnd
  else if l.cursor.column = 0 && x = '%' then directive
  else if ← scan (Scan.isMarker '-') then documentMarker .documentStart
  else if ← scan (Scan.isMarker '.') then documentMarker .documentEnd
  else dispatch x (← scan (Scan.ahead 1)) l.inFlow

/-- Holds while the first token that was found may still start a key. -/
def isHeldBack : Lex Bool := do
  let l ← get
  match (l.level :: l.outer).find? fun level => level.isHeld && level.number = l.taken with
  | some { key := some key, .. } =>
    if l.isStale key then if key.required then missingColon else pure false
    else pure true
  | _ => pure false

def settle : Nat → Lex Unit
  | 0 => pure ()
  | fuel + 1 => do
    let isReady ← if (← get).queue.isEmpty then pure false else do pure !(← isHeldBack)
    if !isReady then
      next
      settle fuel

def peek : Lex Token := do
  settle (← fuel)
  match (← get).queue with
  | t :: _ => pure t
  | [] => pure { kind := .streamEnd, line := (← get).cursor.line }

def skip : Lex Unit :=
  modify fun l => { l with queue := l.queue.tail, taken := l.taken + 1 }

end Lex

end ForthMachine.Yaml
