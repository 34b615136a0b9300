namespace ForthMachine.Yaml.Timestamp

def shortNumber? : List Char → Option (Nat × List Char)
  | a :: b :: rest =>
    if a.isDigit then
      if b.isDigit then some ((a.toNat - 48) * 10 + (b.toNat - 48), rest)
      else some (a.toNat - 48, b :: rest)
    else none
  | [a] => if a.isDigit then some (a.toNat - 48, []) else none
  | [] => none

def fullNumber? : List Char → Option (Nat × List Char)
  | a :: b :: rest =>
    if a.isDigit && b.isDigit then some ((a.toNat - 48) * 10 + (b.toNat - 48), rest) else none
  | _ => none

def expect? (x : Char) : List Char → Option (List Char)
  | y :: rest => if x = y then some rest else none
  | [] => none

def daysIn (year month : Nat) : Nat :=
  if month = 2 then
    if year % 4 = 0 && (year % 100 ≠ 0 || year % 400 = 0) then 29 else 28
  else if month = 4 || month = 6 || month = 9 || month = 11 then 30
  else 31

def date? (cs : List Char) : Option (List Char) := do
  let digits := cs.takeWhile Char.isDigit
  guard (digits.length = 4)
  let year := digits.foldl (fun n d => n * 10 + (d.toNat - 48)) 0
  let (month, cs) ← shortNumber? (← expect? '-' (cs.drop 4))
  guard (1 ≤ month && month ≤ 12)
  let (day, cs) ← shortNumber? (← expect? '-' cs)
  guard (1 ≤ day && day ≤ daysIn year month)
  pure cs

def dropFraction : List Char → List Char
  | x :: d :: rest =>
    if (x = '.' || x = ',') && d.isDigit then rest.dropWhile Char.isDigit else x :: d :: rest
  | cs => cs

def time? (cs : List Char) : Option (List Char) := do
  let (hour, cs) ← shortNumber? cs
  guard (hour < 24)
  let (minute, cs) ← shortNumber? (← expect? ':' cs)
  guard (minute < 60)
  let (second, cs) ← shortNumber? (← expect? ':' cs)
  guard (second < 60)
  pure (dropFraction cs)

def zone? : List Char → Option (List Char)
  | 'Z' :: rest => some rest
  | sign :: cs => do
    guard (sign = '+' || sign = '-')
    let (hours, cs) ← fullNumber? cs
    guard (hours ≤ 24)
    let (minutes, cs) ← fullNumber? (← expect? ':' cs)
    guard (minutes ≤ 60)
    pure cs
  | [] => none

def isEnd : Option (List Char) → Bool
  | some [] => true
  | _ => false

/-- Holds of the texts that are timestamps: a date alone, a date and a time with a zone after the
letter T, or a date and a time without one after spaces. -/
def isTimestamp (text : List Char) : Bool :=
  match date? text with
  | none => false
  | some [] => true
  | some (x :: rest) =>
    if x = 'T' || x = 't' then isEnd ((time? rest).bind zone?)
    else if x = ' ' then isEnd (time? (rest.dropWhile (· = ' ')))
    else false

end ForthMachine.Yaml.Timestamp
