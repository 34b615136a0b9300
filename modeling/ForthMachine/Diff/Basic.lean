import ForthMachine.Diff.Split

namespace ForthMachine.Diff

variable {α : Type} [DecidableEq α]

def compareMiddle (compare : List α → List α → List (Edit α)) (xs ys : List α) : List (Edit α) :=
  if xs.isEmpty then [.insert ys]
  else if ys.isEmpty then [.delete xs]
  else
    let (long, short, operation) :=
      if ys.length < xs.length then (xs, ys, Operation.delete) else (ys, xs, Operation.insert)
    -- one list may lie inside the other
    match (occurrences short 0 long).head? with
    | some i =>
      [⟨operation, long.take i⟩, .keep short, ⟨operation, long.drop (i + short.length)⟩]
    | none =>
      -- a single element that the other list lacks leaves nothing to split
      if short.length = 1 then [.delete xs, .insert ys]
      else match half xs ys with
        | some s =>
          compare s.firstBefore s.secondBefore ++
            .keep s.piece :: compare s.firstAfter s.secondAfter
        | none =>
          match middlePoint xs ys with
          | some (x, y) => compare (xs.take x) (ys.take y) ++ compare (xs.drop x) (ys.drop y)
          | none => [.delete xs, .insert ys]

def compareAux : Nat → List α → List α → List (Edit α)
  | 0, xs, ys => [.delete xs, .insert ys]
  | fuel + 1, xs, ys =>
    if xs = ys then
      if xs.isEmpty then [] else [.keep xs]
    else
      -- only what lies between the common ends has to be compared
      let start := commonStart xs ys
      let xs := xs.drop start.length
      let ys := ys.drop start.length
      let last := commonEnd xs ys
      let xs := xs.take (xs.length - last.length)
      let ys := ys.take (ys.length - last.length)
      let edits := compareMiddle (compareAux fuel) xs ys
      let edits := if start.isEmpty then edits else .keep start :: edits
      let edits := if last.isEmpty then edits else edits ++ [.keep last]
      Edit.clean edits

def compare (xs ys : List α) : List (Edit α) := compareAux (xs.length + ys.length + 1) xs ys

end ForthMachine.Diff
