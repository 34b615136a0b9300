namespace ForthMachine.Text.Utf8

structure Pending where
  owed : Nat
  low : Nat := 0x80
  high : Nat := 0xBF
  value : Nat
  deriving DecidableEq, Repr

/-- The character that a byte starts, unless it is one by itself or can start none. The range of the
second byte leaves out overlong forms, surrogates and values above U+10FFFF. -/
def lead? (b : Nat) : Option Pending :=
  if b < 0xC2 then none
  else if b ≤ 0xDF then some { owed := 1, value := b - 0xC0 }
  else if b = 0xE0 then some { owed := 2, low := 0xA0, value := 0 }
  else if b = 0xED then some { owed := 2, high := 0x9F, value := 0xD }
  else if b ≤ 0xEF then some { owed := 2, value := b - 0xE0 }
  else if b = 0xF0 then some { owed := 3, low := 0x90, value := 0 }
  else if b ≤ 0xF3 then some { owed := 3, value := b - 0xF0 }
  else if b = 0xF4 then some { owed := 3, high := 0x8F, value := 4 }
  else none

def start (b : Nat) : List Char × Option Pending :=
  if b < 0x80 then ([Char.ofNat b], none)
  else match lead? b with
    | some p => ([], some p)
    | none => (['\uFFFD'], none)

def advance (pending : Option Pending) (b : Nat) : List Char × Option Pending :=
  match pending with
  | none => start b
  | some p =>
    if p.low ≤ b ∧ b ≤ p.high then
      let value := p.value * 64 + (b - 0x80)
      if p.owed = 1 then ([Char.ofNat value], none)
      else ([], some { owed := p.owed - 1, value })
    else
      -- the byte rules out the character before it, and may start the next one
      let (chars, next) := start b
      ('\uFFFD' :: chars, next)

def isShort (pending : Option Pending) (rest : List UInt8) : Bool :=
  match pending with
  | none => false
  | some p => (rest.take p.owed).length < p.owed

/-- The characters of a sequence of bytes. A sequence that is not complete ends before a character
that needs more bytes than it has. -/
def decode (complete : Bool) : Option Pending → List UInt8 → List Char
  | pending, [] => if complete && pending.isSome then ['\uFFFD'] else []
  | pending, b :: rest =>
    let (chars, next) := advance pending b.toNat
    if !complete && isShort next rest then chars else chars ++ decode complete next rest

end ForthMachine.Text.Utf8
