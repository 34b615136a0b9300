namespace ForthMachine.Text

structure Binary64 where
  negative : Bool
  mantissa : Nat
  exponent : Int
  deriving DecidableEq, Repr

namespace Binary64

/-- A quotient rounded to the nearest integer, a tie to the even one. -/
def roundDiv (n d : Nat) : Nat :=
  let q := n / d
  let twice := 2 * (n % d)
  if d < twice ∨ (twice = d ∧ q % 2 = 1) then q + 1 else q

def scale (n d : Nat) (e : Int) : Nat × Nat :=
  if 0 ≤ e then (n <<< e.toNat, d) else (n, d <<< (-e).toNat)

/-- The positive quotient `n / d` rounded; `none` when it is too large. -/
def round? (negative : Bool) (n d : Nat) : Option Binary64 :=
  let guess : Int := (n.log2 : Int) - d.log2 - 52
  let (n', d') := scale n d (-guess)
  -- the guess is one too large where the quotient of the leading digits is below one
  let exponent := if n' < d' <<< 52 then guess - 1 else guess
  -- below the least normal number the distance between numbers shrinks no further
  let exponent := max exponent (-1074)
  let (n', d') := scale n d (-exponent)
  let mantissa := roundDiv n' d'
  if 1024 ≤ (mantissa.log2 : Int) + exponent then none else some { negative, mantissa, exponent }

/-- The decimal `m * 10 ^ e` rounded; `none` when it is too large. -/
def ofDecimal? (negative : Bool) (m : Nat) (e : Int) : Option Binary64 :=
  let zero : Binary64 := { negative, mantissa := 0, exponent := 0 }
  let size := (Nat.toDigits 10 m).length + e
  if m = 0 then some zero
  else if 310 < size then none
  else if size < -330 then some zero
  else if 0 ≤ e then round? negative (m * Nat.pow 10 e.toNat) 1
  else round? negative m (Nat.pow 10 (-e).toNat)

def truncate (x : Binary64) : Int :=
  let magnitude :=
    if 0 ≤ x.exponent then x.mantissa <<< x.exponent.toNat
    else x.mantissa >>> (-x.exponent).toNat
  if x.negative then -(magnitude : Int) else magnitude

end Binary64

end ForthMachine.Text
