import ForthMachine.Yaml.Scalar
import ForthMachine.Yaml.Tag

namespace ForthMachine.Yaml

namespace Token

inductive Kind where
  | streamEnd
  | version (major minor : Nat)
  | tagHandle (handle : String) (uri : Octets)
  | documentStart
  | documentEnd
  | blockSequenceStart
  | blockMappingStart
  | blockEnd
  | flowSequenceStart
  | flowSequenceEnd
  | flowMappingStart
  | flowMappingEnd
  | blockEntry
  | flowEntry
  | key
  | value
  | reference (name : String)
  | anchor (name : String)
  | tag (handle : String) (suffix : Octets)
  | scalar (text : String) (isPlain : Bool)
  deriving DecidableEq, Repr

def anchorName : Scan String := do
  Scan.skip
  let name ← Scan.span isNameChar
  let x ← Scan.here
  if name.isEmpty || !(isBlankOrEnd x || "?:,]\x7d%@`".contains x) then
    Scan.fail "did not find expected alphabetic or numeric character"
  pure (String.ofList name)

def versionNumberAux (n : Nat) (digits : List Char) : Scan Nat := do
  Scan.need 1
  let x ← Scan.here
  if x.isDigit then
    match n with
    | 0 => Scan.fail "found extremely long version number"
    | n + 1 =>
      Scan.skip
      versionNumberAux n (digits ++ [x])
  else if digits.isEmpty then Scan.fail "did not find expected version number"
  else pure (digits.foldl (fun n d => n * 10 + (d.toNat - '0'.toNat)) 0)

def versionNumber : Scan Nat := versionNumberAux 2 []

def version : Scan Kind := do
  Scan.skipBlanks
  let major ← versionNumber
  if (← Scan.here) ≠ '.' then Scan.fail "did not find expected digit or '.' character"
  Scan.skip
  pure (.version major (← versionNumber))

def tagHandle : Scan Kind := do
  Scan.skipBlanks
  let handle ← Tag.handle
  if handle ≠ ['!'] && handle.getLast? ≠ some '!' then Scan.fail "did not find expected '!'"
  Scan.need 1
  if !isBlank (← Scan.here) then Scan.fail "did not find expected whitespace"
  Scan.skipBlanks
  let uri ← Tag.suffix []
  Scan.need 1
  if !isBlankOrEnd (← Scan.here) then Scan.fail "did not find expected whitespace or line break"
  pure (.tagHandle (String.ofList handle) uri)

def directive : Scan Kind := do
  Scan.skip
  let name ← Scan.span isNameChar
  if name.isEmpty then Scan.fail "could not find expected directive name"
  if !isBlankOrEnd (← Scan.here) then Scan.fail "found unexpected non-alphabetical character"
  let name := String.ofList name
  let kind ← if name = "YAML" then version
    else if name = "TAG" then tagHandle
    else Scan.fail "found unknown directive name"
  Scan.endLine
  pure kind

end Token

structure Token where
  kind : Token.Kind
  line : Nat
  deriving DecidableEq, Repr

end ForthMachine.Yaml
