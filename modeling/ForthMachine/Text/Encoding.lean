import ForthMachine.Device
import ForthMachine.Text.Encoding.SingleByte
import ForthMachine.Text.Encoding.Utf8
import ForthMachine.Text.Encoding.Wide
import ForthMachine.Text.Octets

namespace ForthMachine

inductive Encoding where
  | utf8
  /-- Little endian unless a byte order mark says otherwise; the mark is no character. -/
  | utf16
  /-- Big endian; a byte order mark is a character like any other. -/
  | utf16BigEndian
  /-- Little endian unless a byte order mark says otherwise; the mark is no character. -/
  | utf32
  | latin1
  | windows1252
  | codePage437
  deriving DecidableEq, Repr

namespace Encoding

def names : List (String × Encoding) := [
  ("utf-8", utf8),
  ("utf-16", utf16),
  ("utf-16be", utf16BigEndian),
  ("utf-32", utf32),
  ("latin1", latin1),
  ("iso-8859-1", latin1),
  ("windows-1252", windows1252),
  ("cp437", codePage437)]

def lower (c : Char) : Char :=
  if 'A' ≤ c ∧ c ≤ 'Z' then c.toLower
  else if c = '\u0130' then 'i'
  else if c = '\u212A' then 'k'
  else c

/-- The encoding with a name in letters of either case; the empty name means UTF-8. -/
def ofName? (name : Octets) : Option Encoding :=
  if name.isEmpty then some utf8
  else name.toString?.bind fun s => names.lookup (String.ofList (s.toList.map lower))

def unknownMessage (name : Octets) : String := "unknown encoding " ++ name.quote

/-- The characters that a sequence of bytes stands for; one that is not complete may end within a
character, which is left out. -/
def characters (bytes : List UInt8) (complete : Bool) : Encoding → List Char
  | utf8 => Text.Utf8.decode complete none bytes
  | utf16 =>
    let (order, bytes) := Text.Wide.splitMark16 bytes
    Text.Wide.decode16 order complete bytes
  | utf16BigEndian => Text.Wide.decode16 .bigEndian complete bytes
  | utf32 =>
    let (order, bytes) := Text.Wide.splitMark32 bytes
    Text.Wide.decode32 order complete bytes
  | latin1 => Text.SingleByte.decode [] bytes
  | windows1252 => Text.SingleByte.decode Text.SingleByte.windows1252 bytes
  | codePage437 => Text.SingleByte.decode Text.SingleByte.codePage437 bytes

def isTooShort (bytes : List UInt8) (e : Encoding) : Bool :=
  e = utf32 && 0 < bytes.length && bytes.length < 4

def source (e : Encoding) (bytes : List UInt8) (ending : Ending) : Source :=
  match ending with
  | .endOfInput =>
    if isTooShort bytes e then
      { rest := [], ending := .failure "transform: short source buffer" }
    else { rest := characters bytes true e, ending }
  | .failure _ => { rest := characters bytes false e, ending }

end Encoding

end ForthMachine
