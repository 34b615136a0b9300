import ForthMachine.File
import ForthMachine.Settings.Basic
import ForthMachine.Yaml.Value

namespace ForthMachine.Settings

open Yaml

structure Reading where
  complaints : Array String := #[]
  /-- The number of nodes visited, of which the document itself is one. -/
  visited : Nat := 1
  /-- How many of them were visited through an alias. -/
  viaAlias : Nat := 0

namespace Reading

/-- The share of nodes that may be visited through aliases, of 360000000 parts: 99 of 100 up to 400000
nodes, 10 of 100 from 4000000 nodes on, and between them ever less. -/
def allowedShare (visited : Nat) : Nat :=
  356400000 - 89 * (min visited 4000000 - 400000)

/-- Holds when too many nodes were visited through aliases. A few always may be. -/
def isExcessive (r : Reading) : Bool :=
  100 < r.viaAlias && 1000 < r.visited
    && r.visited * allowedShare r.visited < r.viaAlias * 360000000

end Reading

abbrev Read := StateT Reading (Except Problem)

def complain (line : Nat) (text : String) : Read Unit :=
  modify fun r =>
    { r with
      complaints := r.complaints.push
        ("line " ++ String.ofList (Nat.toDigits 10 (line + 1)) ++ ": " ++ text) }

def settingsType : String := "config.Config"

def inputType : String := "struct \x7b Encoding string \"yaml:\\\"encoding\\\"\" \x7d"

def shown (text : Octets) : String :=
  if 10 < text.length then " `" ++ Octets.display (text.take 7) ++ "...`"
  else " `" ++ text.display ++ "`"

/-- Notes that a scalar is of the wrong type. The tag that it was given is shown, or else that of its
value. -/
def complainScalar (line : Nat) (text : String) (given tag : Octets) (type : String) : Read Unit :=
  let tag := if given.isEmpty then tag else given
  let value :=
    if tag = Tag.ofType "seq" ∨ tag = Tag.ofType "map" then text else shown (.ofString text)
  complain line ("cannot unmarshal " ++ (Tag.short tag).display ++ value ++ " into " ++ type)

def complainCollection (line : Nat) (kind type : String) : Read Unit :=
  complain line ("cannot unmarshal " ++ kind ++ " into " ++ type)

def visit (followed : List Nat) : Read Unit := do
  modify fun r =>
    { r with
      visited := r.visited + 1
      viaAlias := if followed.isEmpty then r.viaAlias else r.viaAlias + 1 }
  if (← get).isExcessive then throw { text := "document contains excessive aliasing" }

/-- Visits a node and gives what it stands for: an alias stands for the anchored node, which must not
contain it. Gives the aliases followed so far. -/
def follow (d : Document) (followed : List Nat) (n : Node) : Read (Node × List Nat) := do
  visit followed
  match n with
  | .reference _ name number anchor =>
    if number ∈ followed then
      throw { text := "anchor '" ++ name ++ "' value contains itself" }
    -- the anchored node is visited once more, through the alias
    visit (number :: followed)
    pure (d.anchored.getD anchor (.empty 0), number :: followed)
  | n => pure (n, followed)

/-- What a node is worth that should be a scalar. `convert` gives what a value is worth for the type,
nothing being worth `zero`. A value of the wrong type is noted. -/
def scalarOf {α : Type} (type : String) (zero : α) (convert : String → Value → Option α) :
    Node → Read (Option α)
  | .scalar line text tag isImplicit => do
    let (resolved, value) ← Value.resolve text tag isImplicit
    if value = .null then pure (some zero)
    else match convert text value with
      | some a => pure (some a)
      | none =>
        complainScalar line text tag resolved type
        pure none
  | .sequence line _ => do
    complainCollection line "!!seq" type
    pure none
  | .mapping line _ => do
    complainCollection line "!!map" type
    pure none
  | .reference .. => pure none

/-- Reads a text: any scalar, as it is written, or the bytes of a binary one. -/
def readText (d : Document) (followed : List Nat) (n : Node) : Read (Option Octets) := do
  let (n, _) ← follow d followed n
  scalarOf "string" [] (fun text value =>
    match value with
    | .binary bytes => some bytes
    | _ => some (Octets.ofString text)) n

def readBool (d : Document) (followed : List Nat) (n : Node) : Read (Option Bool) := do
  let (n, _) ← follow d followed n
  scalarOf "bool" false (fun _ value =>
    match value with
    | .bool b => some b
    | _ => none) n

/-- The word that a number is cut down to. What lies below all words, or just above them, becomes the
least word. -/
def wordOf? : Value → Option Word
  | .int n => Word.ofInt? n
  | .float x =>
    let n := x.truncate
    if n ≤ Word.bound then some ((Word.ofInt? n).getD Int64.minValue) else none
  | .infinity negative => if negative then some Int64.minValue else none
  | _ => none

/-- Reads an integer; a fraction is cut off. -/
def readWord (d : Document) (followed : List Nat) (n : Node) : Read (Option Word) := do
  let (n, _) ← follow d followed n
  scalarOf "int" 0 (fun _ value => wordOf? value) n

def readTexts (d : Document) (followed : List Nat) (n : Node) : Read (Option (List Octets)) := do
  let (n, followed) ← follow d followed n
  match n with
  | .sequence _ items => do
    let texts ← items.mapM (readText d followed)
    pure (some (texts.filterMap id))
  | n => scalarOf "[]string" [] (fun _ _ => none) n

structure Schema (ρ : Type) where
  type : String
  zero : ρ
  field? : Octets → Option (List Nat → Node → ρ → Read ρ)

def isMerge : Node → Bool
  | .scalar _ text tag isImplicit => text = "<<" && (isImplicit || tag = Tag.ofType "merge")
  | _ => false

def mergeProblem : Problem :=
  { text := "map merge requires map or sequence of maps as the value" }

/-- What a merge key puts in; of several mappings the first counts most and comes last. -/
def merged : Node → List Node
  | .sequence _ items => items.reverse
  | value => [value]

def isMergeable (d : Document) : Node → Bool
  | .reference _ _ _ anchor => (d.anchored.getD anchor (.empty 0)).isMapping
  | value => value.isMapping

/-- Reads a record over the values that it has already. Each key may come once in a mapping. -/
def readRecord {ρ : Type} (d : Document) (schema : Schema ρ) :
    Nat → List Nat → Node → ρ → Read ρ
  | 0, _, _, r => pure r
  | fuel + 1, followed, n, r => do
    let (n, followed) ← follow d followed n
    match n with
    | .mapping _ pairs =>
      let (r, _) ← pairs.foldlM (fun (r, done) (key, value) => do
        if isMerge key then
          -- what is merged counts its own keys, so a key here may set the same field again
          let r ← (merged value).foldlM (fun r value =>
            if isMergeable d value then readRecord d schema fuel followed value r
            else throw mergeProblem) r
          pure (r, done)
        else match ← readText d followed key with
          | none => pure (r, done)
          | some name =>
            match schema.field? name with
            | none =>
              complain key.line
                ("field " ++ name.display ++ " not found in type " ++ schema.type)
              pure (r, done)
            | some readField =>
              if name ∈ done then
                complain key.line
                  ("field " ++ name.display ++ " already set in type " ++ schema.type)
                pure (r, done)
              else pure (← readField followed value r, name :: done)) (r, ([] : List Octets))
      pure r
    | n => do
      -- a scalar that is nothing empties the record, any other one leaves it as it is
      let nothing ← scalarOf schema.type () (fun _ _ => none) n
      pure (if nothing.isSome then schema.zero else r)

def inputSchema (d : Document) : Schema Octets where
  type := inputType
  zero := []
  field? name :=
    if name = .ofString "encoding" then
      some fun followed n encoding => do pure ((← readText d followed n).getD encoding)
    else none

def schema (d : Document) : Schema Settings where
  type := settingsType
  zero := blank
  field? name :=
    if name = .ofString "input" then some fun followed n s => do
      pure { s with encoding := ← readRecord d (inputSchema d) d.depth followed n s.encoding }
    else if name = .ofString "trace" then some fun followed n s => do
      pure { s with trace := (← readBool d followed n).getD s.trace }
    else if name = .ofString "prompt" then some fun followed n s => do
      pure { s with prompt := (← readText d followed n).getD s.prompt }
    else if name = .ofString "history" then some fun followed n s => do
      pure { s with history := (← readText d followed n).getD s.history }
    else if name = .ofString "startup" then some fun followed n s => do
      pure { s with startup := (← readTexts d followed n).getD s.startup }
    else if name = .ofString "base" then some fun followed n s => do
      pure { s with base := (← readWord d followed n).getD s.base }
    else none

def ofDocument (d : Document) : Except Error Settings :=
  match (readRecord d (schema d) d.depth [] d.root {}).run {} with
  | .error p => .error (.unreadable p)
  | .ok (s, r) => if r.complaints.isEmpty then .ok s else .error (.illTyped r.complaints.toList)

def parse (bytes : List UInt8) : Except Error Settings :=
  match Document.parse bytes with
  | .error p => .error (.unreadable p)
  | .ok none => validate {}
  | .ok (some d) => (ofDocument d).bind validate

inductive FileError where
  | unread (reason : String)
  | faulty (name : Octets) (e : Error)
  deriving DecidableEq, Repr

/-- The wording of an error: only what the file holds is said with the name before it, because the
reason why it cannot be read has the name in it. -/
def FileError.message : FileError → String
  | unread reason => reason
  | faulty name e => name.display ++ ": " ++ e.message

def ofFile (name : Octets) (file : File) : Except FileError Settings :=
  match file with
  | .unopened reason => .error (.unread (File.unopenedMessage name reason))
  | .opened _ (.failure reason) => .error (.unread reason)
  | .opened bytes .endOfInput => (parse bytes).mapError (.faulty name)

end ForthMachine.Settings
