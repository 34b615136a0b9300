import ForthMachine.Text.Quoted

namespace ForthMachine.Text.Wide

inductive ByteOrder where
  | bigEndian
  | littleEndian
  deriving DecidableEq, Repr

def ByteOrder.value (order : ByteOrder) (bytes : List UInt8) : Nat :=
  let digits := match order with
    | .bigEndian => bytes
    | .littleEndian => bytes.reverse
  digits.foldl (fun n b => n * 256 + b.toNat) 0

def isSurrogate (unit : Nat) : Bool := 0xD800 ≤ unit && unit < 0xE000

def isTrailing (unit : Nat) : Bool := 0xDC00 ≤ unit && unit < 0xE000

def pair (first second : Nat) : Char :=
  if first < 0xDC00 then Char.ofNat (0x10000 + (first - 0xD800) * 0x400 + (second - 0xDC00))
  else '\uFFFD'

/-- The characters of a sequence of bytes in UTF-16. A surrogate and a unit that can be the second
half of a pair are read together; any other surrogate, and an odd byte at the end, is read as U+FFFD.
A sequence that is not complete ends before an odd byte, and before a surrogate without a unit after
it. -/
def decode16 (order : ByteOrder) (complete : Bool) : List UInt8 → List Char
  | [] => []
  | [_] => if complete then ['\uFFFD'] else []
  | a :: b :: rest =>
    let unit := order.value [a, b]
    if isSurrogate unit then
      match rest with
      | c :: d :: more =>
        let next := order.value [c, d]
        if isTrailing next then pair unit next :: decode16 order complete more
        -- the second unit belongs to no pair and is read anew
        else '\uFFFD' :: decode16 order complete (c :: d :: more)
      | short => if complete then '\uFFFD' :: decode16 order complete short else []
    else Char.ofNat unit :: decode16 order complete rest

def splitMark16 : List UInt8 → ByteOrder × List UInt8
  | 0xFE :: 0xFF :: rest => (.bigEndian, rest)
  | 0xFF :: 0xFE :: rest => (.littleEndian, rest)
  | bytes => (.littleEndian, bytes)

/-- The characters of a sequence of bytes in UTF-32. A value that is no character, and up to three
bytes at the end, are read as U+FFFD; a sequence that is not complete ends before such bytes. -/
def decode32 (order : ByteOrder) (complete : Bool) : List UInt8 → List Char
  | [] => []
  | a :: b :: c :: d :: rest =>
    charOfCode (order.value [a, b, c, d]) :: decode32 order complete rest
  | _ => if complete then ['\uFFFD'] else []

def splitMark32 : List UInt8 → ByteOrder × List UInt8
  | 0x00 :: 0x00 :: 0xFE :: 0xFF :: rest => (.bigEndian, rest)
  | 0xFF :: 0xFE :: 0x00 :: 0x00 :: rest => (.littleEndian, rest)
  | bytes => (.littleEndian, bytes)

end ForthMachine.Text.Wide
