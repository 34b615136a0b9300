namespace ForthMachine.Text.Base64

def letter? (c : Char) : Option Nat :=
  if 'A' ≤ c ∧ c ≤ 'Z' then some (c.toNat - 'A'.toNat)
  else if 'a' ≤ c ∧ c ≤ 'z' then some (c.toNat - 'a'.toNat + 26)
  else if '0' ≤ c ∧ c ≤ '9' then some (c.toNat - '0'.toNat + 52)
  else if c = '+' then some 62
  else if c = '/' then some 63
  else none

def byte (value place : Nat) : UInt8 := UInt8.ofNat (value >>> (8 * place))

def groups? : List Char → Option (List UInt8)
  | [] => some []
  | [a, b, '=', '='] => do
    let value := (← letter? a) * 64 + (← letter? b)
    pure [byte (value / 16) 0]
  | [a, b, c, '='] => do
    let value := ((← letter? a) * 64 + (← letter? b)) * 64 + (← letter? c)
    pure [byte (value / 4) 1, byte (value / 4) 0]
  | a :: b :: c :: d :: rest => do
    let value := (((← letter? a) * 64 + (← letter? b)) * 64 + (← letter? c)) * 64 + (← letter? d)
    pure ([byte value 2, byte value 1, byte value 0] ++ (← groups? rest))
  | _ => none

def decode? (text : List Char) : Option (List UInt8) :=
  groups? (text.filter fun c => c ≠ '\n' && c ≠ '\r')

end ForthMachine.Text.Base64
