namespace ForthMachine.Diff

inductive Operation where
  | keep
  | delete
  | insert
  deriving DecidableEq, Repr

structure Edit (α : Type) where
  operation : Operation
  piece : List α
  deriving DecidableEq, Repr

variable {α : Type} [DecidableEq α]

def commonStart : List α → List α → List α
  | x :: xs, y :: ys => if x = y then x :: commonStart xs ys else []
  | _, _ => []

def commonEnd (xs ys : List α) : List α := (commonStart xs.reverse ys.reverse).reverse

namespace Edit

def keep (piece : List α) : Edit α := ⟨.keep, piece⟩

def delete (piece : List α) : Edit α := ⟨.delete, piece⟩

def insert (piece : List α) : Edit α := ⟨.insert, piece⟩

def joinKeep (done : List (Edit α)) (piece : List α) : List (Edit α) :=
  match done with
  | ⟨.keep, before⟩ :: rest => keep (before ++ piece) :: rest
  | _ => keep piece :: done

/-- Ends a group of edits before a kept piece. What was deleted in the group is written first, then
what was inserted. If both happened, what they start with alike goes to the kept piece before the
group, and what they then end with alike to the one after it. Edits are listed the last one first. -/
def closeGroup (done : List (Edit α)) (deleted inserted : Option (List α)) (piece : List α) :
    List (Edit α) :=
  match deleted, inserted with
  | none, none => joinKeep done piece
  | some d, none => keep piece :: delete d :: done
  | none, some i => keep piece :: insert i :: done
  | some d, some i =>
    let start := commonStart i d
    let done := if start.isEmpty then done else joinKeep done start
    let d := d.drop start.length
    let i := i.drop start.length
    let shared := commonEnd i d
    let d := d.take (d.length - shared.length)
    let i := i.take (i.length - shared.length)
    keep (shared ++ piece) :: insert i :: delete d :: done

/-- Joins neighbouring edits, given the edits before, the last one first, and what the current group
has deleted and inserted. The result has the last edit first. -/
def joinGroups (done : List (Edit α)) (deleted inserted : Option (List α)) :
    List (Edit α) → List (Edit α)
  | [] => closeGroup done deleted inserted []
  | ⟨.delete, piece⟩ :: rest => joinGroups done (some (deleted.getD [] ++ piece)) inserted rest
  | ⟨.insert, piece⟩ :: rest => joinGroups done deleted (some (inserted.getD [] ++ piece)) rest
  | ⟨.keep, piece⟩ :: rest => joinGroups (closeGroup done deleted inserted piece) none none rest

/-- Joins neighbouring edits. A kept piece at the end is left out when it is empty. -/
def join (edits : List (Edit α)) : List (Edit α) :=
  match joinGroups [] none none edits with
  | ⟨_, []⟩ :: rest => rest.reverse
  | done => done.reverse

/-- Shifts single edits between two kept pieces: one that ends with the piece before it goes in front
of that piece, one that starts with the piece after it goes behind that piece. Tells whether any was
shifted. -/
def shift (before : Edit α) : List (Edit α) → List (Edit α) × Bool
  | edit :: after :: rest =>
    if before.operation = .keep ∧ after.operation = .keep then
      if before.piece <:+ edit.piece then
        let kept := edit.piece.take (edit.piece.length - before.piece.length)
        let shifted := { edit with piece := before.piece ++ kept }
        -- the kept piece before joins the one after, at which shifting goes on
        let (more, _) := shift { after with piece := before.piece ++ after.piece } rest
        (shifted :: more, true)
      else if after.piece <+: edit.piece then
        let kept := edit.piece.drop after.piece.length
        let shifted := { edit with piece := kept ++ after.piece }
        -- the kept piece after joins the one before, so shifting goes on at the edit
        let (more, _) := shift shifted rest
        ({ before with piece := before.piece ++ after.piece } :: more, true)
      else
        let (more, changed) := shift edit (after :: rest)
        (before :: more, changed)
    else
      let (more, changed) := shift edit (after :: rest)
      (before :: more, changed)
  | rest => (before :: rest, false)

def cleanAux : Nat → List (Edit α) → List (Edit α)
  | 0, edits => edits
  | fuel + 1, edits =>
    match join edits with
    | [] => []
    | first :: rest =>
      match shift first rest with
      | (edits, true) => cleanAux fuel edits
      | (edits, false) => edits

/-- Joins and shifts edits until nothing can be shifted. Each round takes at least one kept piece out
and each new one takes an element from the edits, so the rounds are bounded. -/
def clean (edits : List (Edit α)) : List (Edit α) :=
  cleanAux (2 * (edits.length + (edits.flatMap (·.piece)).length) + 2) edits

end Edit

end ForthMachine.Diff
