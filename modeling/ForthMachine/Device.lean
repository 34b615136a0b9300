import ForthMachine.Text.Blank

/-!
The devices of the machine: a source of characters for its input, and sinks for its output and its
trace. A sink may refuse a piece of text, and then delivers none of it.
-/

namespace ForthMachine

/-- What a source reports once its characters are used up, and from then on for ever. -/
inductive Ending where
  | endOfInput
  | failure (message : String)
  deriving DecidableEq, Repr

structure Source where
  rest : List Char
  ending : Ending := .endOfInput
  deriving DecidableEq, Repr

namespace Source

/-- Where the reader of words stands: before a word, in a comment, or in a word of which it has read
some characters, the last one first. -/
inductive Scan where
  | outside
  | comment
  | inside (read : List Char)
  deriving DecidableEq, Repr

inductive Lexeme where
  /-- A word, and the characters after the blank that ends it. -/
  | delimited (word rest : List Char)
  | final (word : List Char)
  | absent
  deriving DecidableEq, Repr

/-- Reads through the blank after the next word. Blanks before the word are skipped; a backslash
before it starts a comment that runs to the end of its line. -/
def scan : Scan → List Char → Lexeme
  | .outside, [] => .absent
  | .comment, [] => .absent
  | .inside read, [] => .final read.reverse
  | .outside, c :: rest =>
    if c = '\\' then scan .comment rest
    else if Text.isBlank c then scan .outside rest
    else scan (.inside [c]) rest
  | .comment, c :: rest => if c = '\n' then scan .outside rest else scan .comment rest
  -- within a word a backslash is a character like any other
  | .inside read, c :: rest =>
    if Text.isBlank c then .delimited read.reverse rest else scan (.inside (c :: read)) rest

/-- The next word, or why there is none, and the source after it. The end of the input ends a word; a
failure of the device does not. -/
def nextWord (s : Source) : Except Ending String × Source :=
  match scan .outside s.rest with
  | .delimited word rest => (.ok (String.ofList word), { s with rest })
  | .final word =>
    match s.ending with
    | .endOfInput => (.ok (String.ofList word), { s with rest := [] })
    | .failure _ => (.error s.ending, { s with rest := [] })
  | .absent => (.error s.ending, { s with rest := [] })

/-- The next character, or why there is none, and the source after it. -/
def nextChar (s : Source) : Except Ending Char × Source :=
  match s.rest with
  | c :: rest => (.ok c, { s with rest })
  | [] => (.error s.ending, s)

end Source

/-- A sink of text. Whether it takes a piece may depend on all pieces that it was offered before,
the last one first; `refusal` gives the reason for which it does not. -/
structure Sink where
  delivered : String := ""
  offered : List String := []
  refusal : List String → String → Option String := fun _ _ => none

namespace Sink

/-- The bytes left of a budget after some pieces were offered, the last one first: a piece that does
not fit leaves the budget as it is. -/
def budgetLeft (budget : Nat) : List String → Nat
  | [] => budget
  | piece :: earlier =>
    let left := budgetLeft budget earlier
    if piece.utf8ByteSize ≤ left then left - piece.utf8ByteSize else left

def unlimited (s : Sink) : Sink := { delivered := s.delivered }

def limited (s : Sink) (budget : Nat) : Sink where
  delivered := s.delivered
  refusal := fun offered piece =>
    if piece.utf8ByteSize ≤ budgetLeft budget offered then none else some "device full"

def write (s : Sink) (piece : String) : Option String × Sink :=
  match s.refusal s.offered piece with
  | none => (none, { s with delivered := s.delivered ++ piece, offered := piece :: s.offered })
  | some reason => (some reason, { s with offered := piece :: s.offered })

end Sink

/-- The devices of a machine. Trace text goes to the output until a trace sink is given. -/
structure Console where
  input : Option Source := none
  output : Sink := {}
  trace : Option Sink := none
  tracing : Bool := false

namespace Console

/-- Writes trace text while tracing is on. A sink that refuses it is not noticed. -/
def note (c : Console) (piece : String) : Console :=
  if c.tracing then
    match c.trace with
    | some sink => { c with trace := some (sink.write piece).2 }
    | none => { c with output := (c.output.write piece).2 }
  else c

def remaining (c : Console) : Nat :=
  match c.input with
  | some source => source.rest.length
  | none => 0

end Console

end ForthMachine
