import ForthMachine.Text.Octets
import ForthMachine.Yaml.Cursor

namespace ForthMachine.Yaml.Tag

def standard : Octets := .ofString "tag:yaml.org,2002:"

def ofType (name : String) : Octets := standard ++ Octets.ofString name

def short (tag : Octets) : Octets :=
  if standard.isPrefixOf tag then Octets.ofString "!!" ++ tag.drop standard.length else tag

/-- The characters of a tag. A percent sign stands before the digits of an octet. -/
def isTagChar (x : Char) : Bool := isNameChar x || ";/?:@&=+$,.!~*'()[]%".contains x

def octetOf? (a b : Char) : Option UInt8 := do
  pure (UInt8.ofNat ((← hexValue? a) * 16 + (← hexValue? b)))

def octet : Scan UInt8 := do
  Scan.need 3
  match ← Scan.here, octetOf? (← Scan.ahead 1) (← Scan.ahead 2) with
  | '%', some b =>
    Scan.skipMany 3
    pure b
  | _, _ => Scan.fail "did not find URI escaped octet"

def trailing : Nat → Scan Octets
  | 0 => pure []
  | n + 1 => do
    let b ← octet
    if !Coding.isTrailing b then Scan.fail "found an incorrect trailing UTF-8 octet"
    pure (b :: (← trailing n))

def escaped : Scan Octets := do
  let b ← octet
  let width := Coding.width b
  if width = 0 then Scan.fail "found an incorrect leading UTF-8 octet"
  pure (b :: (← trailing (width - 1)))

def suffixAux : Nat → Scan Octets
  | 0 => pure []
  | fuel + 1 => do
    let x ← Scan.here
    if isTagChar x then
      let bytes ← if x = '%' then escaped else do
        Scan.skip
        pure (Octets.ofString (String.singleton x))
      Scan.need 1
      pure (bytes ++ (← suffixAux fuel))
    else pure []

/-- Reads a tag of which the characters in `head` were read, up to its end. What is read after a mark
alone, or after nothing, is the suffix. -/
def suffix (head : List Char) : Scan Octets := do
  Scan.need 1
  if head.isEmpty && !isTagChar (← Scan.here) then Scan.fail "did not find expected tag URI"
  pure (Octets.ofString (String.ofList head.tail) ++ (← suffixAux (← Scan.fuel)))

/-- Reads a handle: an exclamation mark, or a name between two of them. Without the second mark it is
the start of a suffix. -/
def handle : Scan (List Char) := do
  Scan.need 1
  if (← Scan.here) ≠ '!' then Scan.fail "did not find expected '!'"
  Scan.skip
  let name ← Scan.span isNameChar
  if (← Scan.here) = '!' then
    Scan.skip
    pure ('!' :: (name ++ ['!']))
  else pure ('!' :: name)

def whole : Scan Octets := do
  Scan.skipMany 2
  let tag ← suffix []
  if (← Scan.here) ≠ '>' then Scan.fail "did not find the expected '>'"
  Scan.skip
  pure tag

def read : Scan (String × Octets) := do
  Scan.need 2
  let tag ← if (← Scan.ahead 1) = '<' then do pure ("", ← whole) else do
    let head ← handle
    if 1 < head.length && head.getLast? = some '!' then pure (String.ofList head, ← suffix [])
    else
      let tag ← suffix head
      -- a mark with nothing behind it is a tag without a handle
      pure (if tag.isEmpty then ("", Octets.ofString "!") else ("!", tag))
  Scan.need 1
  if !isBlankOrEnd (← Scan.here) then Scan.fail "did not find expected whitespace or line break"
  pure tag

end ForthMachine.Yaml.Tag
