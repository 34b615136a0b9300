import ForthMachine.Diff.Edit

namespace ForthMachine.Diff

variable {α : Type} [DecidableEq α]

def occurrences (pattern : List α) (i : Nat) : List α → List Nat
  | [] => if pattern.isEmpty then [i] else []
  | x :: rest =>
    let later := occurrences pattern (i + 1) rest
    if pattern.isPrefixOf (x :: rest) then i :: later else later

structure Shared (α : Type) where
  firstBefore : List α
  secondBefore : List α
  piece : List α
  firstAfter : List α
  secondAfter : List α

def Shared.swap (s : Shared α) : Shared α where
  firstBefore := s.secondBefore
  secondBefore := s.firstBefore
  piece := s.piece
  firstAfter := s.secondAfter
  secondAfter := s.firstAfter

def sharedAt (long short : List α) (i j : Nat) : Shared α :=
  let after := commonStart (long.drop i) (short.drop j)
  let before := commonEnd (long.take i) (short.take j)
  { firstBefore := long.take (i - before.length)
    secondBefore := short.take (j - before.length)
    piece := before ++ after
    firstAfter := long.drop (i + after.length)
    secondAfter := short.drop (j + after.length) }

/-- The longest shared piece that contains the quarter of the first list at position `i`, if it is at
least half as long as that list. -/
def sharedAround (long short : List α) (i : Nat) : Option (Shared α) :=
  let seed := (long.drop i).take (long.length / 4)
  let found := (occurrences seed 0 short).map (sharedAt long short i)
  let best := found.foldl (fun best s =>
    match best with
    | some b => if b.piece.length < s.piece.length then some s else best
    | none => some s) none
  best.filter fun s => long.length ≤ 2 * s.piece.length

/-- A shared piece at least half as long as the longer list, which is the first one here. The second
and the third quarter are tried as seeds; of two pieces of one length the later one is taken. -/
def halfOfLonger (long short : List α) : Option (Shared α) :=
  if long.length < 4 ∨ 2 * short.length < long.length then none
  else
    match sharedAround long short ((long.length + 3) / 4),
      sharedAround long short ((long.length + 1) / 2) with
    | some s, some t => if t.piece.length < s.piece.length then some s else some t
    | some s, none => some s
    | none, t => t

def half (xs ys : List α) : Option (Shared α) :=
  if ys.length < xs.length then halfOfLonger xs ys else (halfOfLonger ys xs).map Shared.swap

/-- How far a search from one end has come: for each diagonal the furthest position in the first
list, -1 where none is known, and how many diagonals at either side lie outside the grid. -/
structure Frontier where
  reach : Array Int
  low : Int := 0
  high : Int := 0

/-- The furthest position on a diagonal; `middle` is the index of diagonal 0. -/
def Frontier.get (f : Frontier) (middle : Nat) (diagonal : Int) : Int :=
  let i := middle + diagonal
  if 0 ≤ i then f.reach.getD i.toNat (-1) else -1

def follow (xs ys : Array α) : Nat → Int → Int → Int
  | 0, x, _ => x
  | fuel + 1, x, y =>
    match xs[x.toNat]?, ys[y.toNat]? with
    | some a, some b => if a = b then follow xs ys fuel (x + 1) (y + 1) else x
    | _, _ => x

/-- Takes a search one edit further on the diagonals from `k` on, every other one. Where the search
from the other end is given, gives the diagonal and position at which the two meet. -/
def Frontier.sweep (xs ys : Array α) (middle : Nat) (d : Int) (other : Option Frontier) :
    Nat → Int → Frontier → (Int × Int) ⊕ Frontier
  | 0, _, f => .inr f
  | fuel + 1, k, f =>
    if d - f.high < k then .inr f
    else
      let below := f.get middle (k - 1)
      let above := f.get middle (k + 1)
      -- an insertion keeps the position in the first list, a deletion takes it one further
      let x := if k = -d ∨ (k ≠ d ∧ below < above) then above else below + 1
      let x := follow xs ys xs.size x (x - k)
      let f := { f with reach := f.reach.setIfInBounds (middle + k).toNat x }
      -- a diagonal that has left the grid is not tried again
      if xs.size < x then sweep xs ys middle d other fuel (k + 2) { f with high := f.high + 2 }
      else if ys.size < x - k then
        sweep xs ys middle d other fuel (k + 2) { f with low := f.low + 2 }
      else
        let met := match other with
          | none => false
          | some o =>
            let opposite := o.get middle (xs.size - ys.size - k)
            opposite ≠ -1 ∧ xs.size ≤ x + opposite
        if met then .inl (k, x) else sweep xs ys middle d other fuel (k + 2) f

/-- Searches from both ends, taking edit number `d` in turn, for at most `fuel` more edits. Gives the
positions at which the searches meet. -/
def meet (xs ys reversedXs reversedYs : Array α) (middle : Nat) :
    Nat → Int → Frontier → Frontier → Option (Nat × Nat)
  | 0, _, _, _ => none
  | fuel + 1, d, front, back =>
    let delta : Int := xs.size - ys.size
    -- where the lengths differ by an odd number, the search from the front meets the other one
    let isOdd := delta % 2 ≠ 0
    match front.sweep xs ys middle d (if isOdd then some back else none) (2 * middle + 1)
      (-d + front.low) with
    | .inl (k, x) => some (x.toNat, (x - k).toNat)
    | .inr front =>
      match back.sweep reversedXs reversedYs middle d (if isOdd then none else some front)
        (2 * middle + 1) (-d + back.low) with
      | .inl (k, _) =>
        let x := front.get middle (delta - k)
        some (x.toNat, (x - (delta - k)).toNat)
      | .inr back => meet xs ys reversedXs reversedYs middle fuel (d + 1) front back

def middlePoint (xs ys : List α) : Option (Nat × Nat) :=
  let most := (xs.length + ys.length + 1) / 2
  let frontier : Frontier :=
    { reach := (Array.replicate (2 * most) (-1)).setIfInBounds (most + 1) 0 }
  meet xs.toArray ys.toArray xs.reverse.toArray ys.reverse.toArray most most 0 frontier frontier

end ForthMachine.Diff
