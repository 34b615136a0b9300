import ForthMachine.Text.Encoding.Wide

namespace ForthMachine.Yaml

inductive Coding where
  | utf8
  | utf16 (order : Text.Wide.ByteOrder)
  deriving DecidableEq, Repr

namespace Coding

def detect : List UInt8 → Coding × List UInt8
  | 0xFF :: 0xFE :: rest => (.utf16 .littleEndian, rest)
  | 0xFE :: 0xFF :: rest => (.utf16 .bigEndian, rest)
  | 0xEF :: 0xBB :: 0xBF :: rest => (.utf8, rest)
  | bytes => (.utf8, bytes)

def width (b : UInt8) : Nat :=
  if b < 0x80 then 1
  else if b < 0xC0 then 0
  else if b < 0xE0 then 2
  else if b < 0xF0 then 3
  else if b < 0xF8 then 4
  else 0

def isTrailing (b : UInt8) : Bool := 0x80 ≤ b && b < 0xC0

def codeOf : List UInt8 → Nat
  | [] => 0
  | [a] => a.toNat
  | a :: rest =>
    let lead := a.toNat % (if rest.length = 1 then 0x20 else if rest.length = 2 then 0x10 else 0x08)
    rest.foldl (fun n b => n * 0x40 + b.toNat % 0x40) lead

def readUtf8 (size : Nat) (bytes : List UInt8) : Except String (Nat × List UInt8) :=
  let code := codeOf (bytes.take size)
  if !((bytes.take size).drop 1).all isTrailing then .error "invalid trailing UTF-8 octet"
  else if (size = 2 && code < 0x80) || (size = 3 && code < 0x800) || (size = 4 && code < 0x10000)
    then .error "invalid length of a UTF-8 sequence"
  else if !code.isValidChar then .error "invalid Unicode character"
  else .ok (code, bytes.drop size)

/-- Reads a character in UTF-16; `none` when more bytes are needed. -/
def readUtf16 (order : Text.Wide.ByteOrder) (ended : Bool) :
    List UInt8 → Except String (Option (Nat × List UInt8))
  | a :: b :: rest =>
    let unit := order.value [a, b]
    if Text.Wide.isTrailing unit then .error "unexpected low surrogate area"
    else if Text.Wide.isSurrogate unit then
      match rest with
      | c :: d :: rest =>
        let next := order.value [c, d]
        if Text.Wide.isTrailing next then .ok (some ((Text.Wide.pair unit next).toNat, rest))
        else .error "expected low surrogate area"
      | _ => if ended then .error "incomplete UTF-16 surrogate pair" else .ok none
    else .ok (some (unit, rest))
  | _ => if ended then .error "incomplete UTF-16 character" else .ok none

/-- Reads the code point of a character; `none` when more bytes are needed, which is an error once
there are no more. -/
def read (ended : Bool) (coding : Coding) (bytes : List UInt8) :
    Except String (Option (Nat × List UInt8)) :=
  match coding, bytes with
  | _, [] => .ok none
  | .utf8, b :: rest =>
    let size := width b
    if size = 0 then .error "invalid leading UTF-8 octet"
    else if (b :: rest).length < size then
      if ended then .error "incomplete UTF-8 octet sequence" else .ok none
    else (readUtf8 size (b :: rest)).map some
  | .utf16 order, bytes => readUtf16 order ended bytes

end Coding

def isAllowed (n : Nat) : Bool :=
  n = 0x09 || n = 0x0A || n = 0x0D || (0x20 ≤ n && n ≤ 0x7E) || n = 0x85
    || (0xA0 ≤ n && n ≤ 0xFFFD) || 0x10000 ≤ n

structure Buffer where
  ready : List Char := []
  /-- The first character that was ready when the buffer was last filled. -/
  first : Option Char := none
  fetched : List UInt8 := []
  input : List UInt8
  ended : Bool := false
  coding : Option Coding := none
  /-- More than the number of characters that will ever be asked for. -/
  bound : Nat

namespace Buffer

def portion : Nat := 512

/-- The buffer before the bytes of a text. A text without any is read as an empty line. -/
def ofBytes (bytes : List UInt8) : Buffer where
  input := if bytes.isEmpty then [0x0A] else bytes
  bound := bytes.length + 8

def fetch (b : Buffer) : Buffer :=
  match b.input.take (portion - b.fetched.length) with
  | [] => { b with ended := b.ended || b.input.isEmpty }
  | bytes =>
    { b with fetched := b.fetched ++ bytes, input := b.input.drop bytes.length }

def convert (coding : Coding) (ended : Bool) :
    Nat → List UInt8 → Except String (List Char × List UInt8)
  | 0, bytes => .ok ([], bytes)
  | fuel + 1, bytes =>
    match coding.read ended bytes with
    | .error problem => .error problem
    | .ok none => .ok ([], bytes)
    | .ok (some (code, rest)) =>
      if isAllowed code then
        match convert coding ended fuel rest with
        | .error problem => .error problem
        | .ok (chars, rest) => .ok (Char.ofNat code :: chars, rest)
      else .error "control characters are not allowed"

def detect (b : Buffer) : Buffer :=
  let rec go : Nat → Buffer → Buffer
    | 0, b => b
    | rounds + 1, b => if b.ended || 3 ≤ b.fetched.length then b else go rounds b.fetch
  match b.coding with
  | some _ => b
  | none =>
    let b := go 4 b
    let (coding, fetched) := Coding.detect b.fetched
    { b with coding := some coding, fetched }

def has (b : Buffer) (n : Nat) : Bool := (b.ready.take n).length = n

def fillAux (coding : Coding) (n : Nat) : Nat → Bool → Buffer → Except String Buffer
  | 0, _, b => .ok b
  | fuel + 1, again, b =>
    if b.has n then .ok b
    else
      -- bytes left over from before are tried before more are fetched
      let b := if again || b.fetched.isEmpty then b.fetch else b
      match convert coding b.ended b.fetched.length b.fetched with
      | .error problem => .error problem
      | .ok (chars, fetched) =>
        let b := { b with ready := b.ready ++ chars, fetched }
        if b.ended then .ok { b with ready := b.ready ++ ['\x00'] }
        else fillAux coding n fuel true b

def fill (n : Nat) (b : Buffer) : Except String Buffer :=
  if b.has n then .ok b
  else
    let b := b.detect
    match fillAux (b.coding.getD .utf8) n b.bound false b with
    | .error problem => .error problem
    | .ok b => .ok { b with first := b.ready.head? }

end Buffer

end ForthMachine.Yaml
