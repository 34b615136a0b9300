import ForthMachine.Yaml.Lexer

namespace ForthMachine.Yaml

inductive Node where
  /-- A text with its tag. An implicit scalar means what it looks like, any other one is text. -/
  | scalar (line : Nat) (text : String) (tag : Octets) (isImplicit : Bool)
  | sequence (line : Nat) (items : List Node)
  | mapping (line : Nat) (pairs : List (Node × Node))
  /-- Another place for an anchored node. Each alias has a number of its own. -/
  | reference (line : Nat) (name : String) (number anchor : Nat)

structure Document where
  root : Node
  anchored : Array Node
  /-- A bound on how deep a walk through the nodes can go that follows no alias twice. -/
  depth : Nat

namespace Node

def empty (line : Nat) : Node := .scalar line "" [] true

def line : Node → Nat
  | scalar line .. | sequence line _ | mapping line _ | reference line .. => line

def isMapping : Node → Bool
  | mapping .. => true
  | _ => false

structure Reading where
  lexer : Lexer
  handles : List (String × Octets) := []
  /-- The anchors so far by name, the newest one first. -/
  anchors : List (String × Nat) := []
  anchored : Array Node := #[]
  aliases : Nat := 0

abbrev Read := StateT Reading (Except Problem)

def problemAt (line : Nat) (text : String) : Problem :=
  { text, line := if line = 0 then none else some line }

def lex {α : Type} (x : Lex α) : Read α := do
  let r ← get
  match x.run r.lexer with
  | .ok (a, lexer) =>
    set { r with lexer }
    pure a
  | .error p => throw p

def peek : Read Token := lex Lex.peek

def skip : Read Unit := lex Lex.skip

def optional {α : Type} (read? : Token.Kind → Option α) : Read (Option (α × Nat)) := do
  let t ← peek
  match read? t.kind with
  | some a =>
    skip
    pure (some (a, t.line))
  | none => pure none

def anchor? : Token.Kind → Option String
  | .anchor name => some name
  | _ => none

def tag? : Token.Kind → Option (String × Octets)
  | .tag handle suffix => some (handle, suffix)
  | _ => none

structure Properties where
  tag : Option ((String × Octets) × Nat) := none
  anchor : Option (String × Nat) := none

def properties : Read Properties := do
  match ← optional anchor? with
  | some anchor => pure { tag := ← optional tag?, anchor := some anchor }
  | none =>
    match ← optional tag? with
    | some tag => pure { tag := some tag, anchor := ← optional anchor? }
    | none => pure {}

def Properties.line? (p : Properties) : Option Nat :=
  match p.tag, p.anchor with
  | some (_, n), some (_, m) => some (min n m)
  | some (_, n), none => some n
  | none, anchor => anchor.map (·.2)

def Properties.resolve (p : Properties) : Read Octets := do
  match p.tag with
  | none => pure []
  | some ((handle, suffix), line) =>
    if handle = "" then pure suffix
    else match (← get).handles.lookup handle with
      | some uri => pure (uri ++ suffix)
      | none => throw (problemAt line "found undefined tag handle")

def reserve (name : String) : Read Nat :=
  modifyGet fun r =>
    let n := r.anchored.size
    (n, { r with anchors := (name, n) :: r.anchors, anchored := r.anchored.push (.empty 0) })

def aliasOf (line : Nat) (name : String) : Read Node := do
  let r ← get
  match r.anchors.lookup name with
  | some anchor =>
    set { r with aliases := r.aliases + 1 }
    pure (.reference line name r.aliases anchor)
  | none => throw { text := "unknown anchor '" ++ name ++ "' referenced" }

mutual

/-- Reads a node. Block collections are allowed where `block` holds; the entries of a sequence need
not be indented where `flat` holds. -/
def read (block flat : Bool) : Nat → Read Node
  | 0 => throw { text := "exceeded max depth" }
  | fuel + 1 => do
    let t ← peek
    match t.kind with
    | .reference name =>
      skip
      aliasOf t.line name
    | _ =>
      let p ← properties
      let t ← peek
      let tag ← p.resolve
      -- the anchor is known before the content, in which aliases may name it already
      let number ← p.anchor.mapM (reserve ·.1)
      let node ← readContent block flat fuel (p.line?.getD t.line) tag p.line?.isSome t
      match number with
      | some n => modify fun r => { r with anchored := r.anchored.setIfInBounds n node }
      | none => pure ()
      pure node

/-- Reads a node whose first token is `t`; `marked` tells whether a tag or an anchor stands before
it. -/
def readContent (block flat : Bool) (fuel line : Nat) (tag : Octets) (marked : Bool) (t : Token) :
    Read Node := do
  match fuel with
  | 0 => throw { text := "exceeded max depth" }
  | fuel + 1 =>
    match t.kind with
    | .scalar text isPlain =>
      skip
      pure (.scalar line text tag ((tag.isEmpty && isPlain) || tag = Octets.ofString "!"))
    | .flowSequenceStart =>
      skip
      pure (.sequence line (← readFlowItems true fuel))
    | .flowMappingStart =>
      skip
      pure (.mapping line (← readFlowPairs true fuel))
    | kind =>
      if flat && kind = .blockEntry then pure (.sequence line (← readFlatItems fuel))
      else if block && kind = .blockSequenceStart then
        skip
        pure (.sequence line (← readBlockItems fuel))
      else if block && kind = .blockMappingStart then
        skip
        pure (.mapping line (← readBlockPairs fuel))
      else if marked then pure (.scalar line "" tag tag.isEmpty)
      else throw (problemAt t.line "did not find expected node content")

def readBlockItems : Nat → Read (List Node)
  | 0 => throw { text := "exceeded max depth" }
  | fuel + 1 => do
    let t ← peek
    match t.kind with
    | .blockEntry =>
      skip
      let next ← peek
      let item ← if next.kind = .blockEntry || next.kind = .blockEnd then pure (.empty t.line)
        else read true false fuel
      pure (item :: (← readBlockItems fuel))
    | .blockEnd =>
      skip
      pure []
    | _ => throw (problemAt t.line "did not find expected '-' indicator")

def readFlatItems : Nat → Read (List Node)
  | 0 => throw { text := "exceeded max depth" }
  | fuel + 1 => do
    let t ← peek
    match t.kind with
    | .blockEntry =>
      skip
      let next ← peek
      let item ← if next.kind = .blockEntry || next.kind = .key || next.kind = .value
          || next.kind = .blockEnd then pure (.empty t.line)
        else read true false fuel
      pure (item :: (← readFlatItems fuel))
    | _ => pure []

def readBlockPairs : Nat → Read (List (Node × Node))
  | 0 => throw { text := "exceeded max depth" }
  | fuel + 1 => do
    let t ← peek
    match t.kind with
    | .blockEnd =>
      skip
      pure []
    | .key =>
      skip
      let next ← peek
      let key ← if next.kind = .key || next.kind = .value || next.kind = .blockEnd then
          pure (.empty t.line)
        else read true true fuel
      let value ← readBlockValue fuel
      pure ((key, value) :: (← readBlockPairs fuel))
    | _ => throw (problemAt t.line "did not find expected key")

def readBlockValue : Nat → Read Node
  | 0 => throw { text := "exceeded max depth" }
  | fuel + 1 => do
    let t ← peek
    match t.kind with
    | .value =>
      skip
      let next ← peek
      if next.kind = .key || next.kind = .value || next.kind = .blockEnd then pure (.empty t.line)
      else read true true fuel
    | _ => pure (.empty t.line)

/-- Reads the items between square brackets. An item with a colon is a mapping with one pair. -/
def readFlowItems (first : Bool) : Nat → Read (List Node)
  | 0 => throw { text := "exceeded max depth" }
  | fuel + 1 => do
    let t ← peek
    if t.kind = .flowSequenceEnd then
      skip
      pure []
    else
      if !first then
        if t.kind = .flowEntry then skip
        else throw (problemAt t.line "did not find expected ',' or ']'")
      let t ← peek
      match t.kind with
      | .flowSequenceEnd =>
        skip
        pure []
      | .key =>
        skip
        let pair ← readFlowPair fuel
        pure (.mapping t.line [pair] :: (← readFlowItems false fuel))
      | _ =>
        let item ← read false false fuel
        pure (item :: (← readFlowItems false fuel))

def readFlowPair : Nat → Read (Node × Node)
  | 0 => throw { text := "exceeded max depth" }
  | fuel + 1 => do
    let t ← peek
    let key ← if t.kind = .value || t.kind = .flowEntry || t.kind = .flowSequenceEnd then do
        skip
        pure (.empty t.line)
      else read false false fuel
    let t ← peek
    if t.kind = .value then
      skip
      let next ← peek
      if next.kind = .flowEntry || next.kind = .flowSequenceEnd then pure (key, .empty next.line)
      else pure (key, ← read false false fuel)
    else pure (key, .empty t.line)

def readFlowPairs (first : Bool) : Nat → Read (List (Node × Node))
  | 0 => throw { text := "exceeded max depth" }
  | fuel + 1 => do
    let t ← peek
    if t.kind = .flowMappingEnd then
      skip
      pure []
    else
      if !first then
        if t.kind = .flowEntry then skip
        else throw (problemAt t.line "did not find expected ',' or '\x7d'")
      let t ← peek
      match t.kind with
      | .flowMappingEnd =>
        skip
        pure []
      | .key =>
        skip
        let next ← peek
        let key ← if next.kind = .value || next.kind = .flowEntry || next.kind = .flowMappingEnd
          then pure (.empty next.line) else read false false fuel
        let value ← readFlowValue fuel
        pure ((key, value) :: (← readFlowPairs false fuel))
      | _ =>
        let key ← read false false fuel
        let after ← peek
        pure ((key, .empty after.line) :: (← readFlowPairs false fuel))

def readFlowValue : Nat → Read Node
  | 0 => throw { text := "exceeded max depth" }
  | fuel + 1 => do
    let t ← peek
    if t.kind = .value then
      skip
      let next ← peek
      if next.kind = .flowEntry || next.kind = .flowMappingEnd then pure (.empty next.line)
      else read false false fuel
    else pure (.empty t.line)

end

def standardHandles : List (String × Octets) := [("!", .ofString "!"), ("!!", Tag.standard)]

def readDirectives : Nat → Bool → List (String × Octets) → Read (List (String × Octets))
  | 0, _, handles => pure handles
  | fuel + 1, versioned, handles => do
    let t ← peek
    match t.kind with
    | .version major minor =>
      if versioned then throw (problemAt t.line "found duplicate %YAML directive")
      if major ≠ 1 || minor ≠ 1 then throw (problemAt t.line "found incompatible YAML document")
      skip
      readDirectives fuel true handles
    | .tagHandle handle uri =>
      if (handles.lookup handle).isSome then
        throw (problemAt t.line "found duplicate %TAG directive")
      skip
      readDirectives fuel versioned (handles ++ [(handle, uri)])
    | _ => pure handles

def isOutside : Token.Kind → Bool
  | .streamEnd | .version .. | .tagHandle .. | .documentStart | .documentEnd => true
  | _ => false

/-- Reads the first document; there is none in an empty text. -/
def readDocument (fuel : Nat) : Read (Option Node) := do
  let t ← peek
  let root ← match t.kind with
    | .streamEnd => pure none
    | .version .. | .tagHandle .. | .documentStart => do
      let handles ← readDirectives fuel false []
      modify fun r => { r with handles := handles ++ standardHandles }
      let t ← peek
      if t.kind ≠ .documentStart then
        throw (problemAt t.line "did not find expected <document start>")
      skip
      let t ← peek
      if isOutside t.kind then pure (some (.empty t.line)) else some <$> read true false fuel
    | _ => do
      modify fun r => { r with handles := standardHandles }
      some <$> read true false fuel
  -- the token after the document is looked for as well: what is wrong there counts
  discard peek
  pure root

end Node

def Document.parse (bytes : List UInt8) : Except Problem (Option Document) := do
  let buffer := Buffer.ofBytes bytes
  let start : Node.Reading := { lexer := { cursor := { buffer } } }
  let (root, reading) ← (Node.readDocument (8 * buffer.bound)).run start
  pure (root.map fun root =>
    { root, anchored := reading.anchored, depth := buffer.bound * buffer.bound })

end ForthMachine.Yaml
