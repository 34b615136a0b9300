import ForthMachine.Text.Encoding.Utf8
import ForthMachine.Text.Quoted

/-!
Texts as sequences of bytes. Names and messages that come from outside are mostly UTF-8, but need not
be: a byte that belongs to no character stands for itself. It is shown as U+FFFD, and quoted by its
value in hexadecimal.
-/

namespace ForthMachine

abbrev Octets := List UInt8

namespace Octets

def ofString (s : String) : Octets := s.toUTF8.toList

def complete? (p : Text.Utf8.Pending) : Octets → Option Char
  | [] => none
  | b :: rest =>
    let b := b.toNat
    if p.low ≤ b ∧ b ≤ p.high then
      let value := p.value * 64 + (b - 0x80)
      if p.owed = 1 then some (Char.ofNat value)
      else complete? { owed := p.owed - 1, value } rest
    else none

def firstChar? : Octets → Option Char
  | [] => none
  | b :: rest =>
    if b < 0x80 then some (Char.ofNat b.toNat)
    else (Text.Utf8.lead? b.toNat).bind fun p => complete? p rest

inductive Element where
  | char (c : Char)
  | stray (b : UInt8)
  deriving DecidableEq, Repr

def elementsAfter : Nat → Octets → List Element
  | _, [] => []
  | used + 1, _ :: rest => elementsAfter used rest
  | 0, b :: rest =>
    match firstChar? (b :: rest) with
    | some c => .char c :: elementsAfter (c.utf8Size - 1) rest
    | none => .stray b :: elementsAfter 0 rest

def elements (text : Octets) : List Element := elementsAfter 0 text

def display (text : Octets) : String :=
  String.ofList (text.elements.map fun
    | .char c => c
    | .stray _ => '\uFFFD')

def toString? (text : Octets) : Option String :=
  (text.elements.mapM fun (e : Element) =>
    match e with
    | .char c => some c
    | .stray _ => none).map String.ofList

def quote (text : Octets) : String :=
  String.ofList ('"' :: (text.elements.flatMap (fun
    | .char c => Text.escape '"' c
    | .stray b => '\\' :: 'x' :: Text.hex 2 b.toNat) ++ ['"']))

end Octets

end ForthMachine
