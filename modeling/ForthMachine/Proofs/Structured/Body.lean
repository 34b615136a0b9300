import ForthMachine.Dictionary
import ForthMachine.Proofs.Memory.Block

/-!
Structured bodies: what stands between the name of a definition and its end, when branches come only
from IF, ELSE, THEN, BEGIN, UNTIL and AGAIN. A body has a spelling, as words of a source, and a layout,
as cells of threaded code.
-/

namespace ForthMachine

inductive Body (ν ω : Type) where
  | empty
  | seq (first second : Body ν ω)
  | literal (n : ν)
  | word (w : ω)
  | ifThen (yes : Body ν ω)
  | ifElse (yes no : Body ν ω)
  | beginUntil (body : Body ν ω)
  | beginAgain (body : Body ν ω)
  deriving DecidableEq, Repr

structure Branches where
  zeroBranch : Word
  branch : Word
  deriving DecidableEq, Repr

namespace Body

def ofList {ν ω : Type} : List (Body ν ω) → Body ν ω
  | [] => empty
  | item :: rest => seq item (ofList rest)

def isFlat {ν ω : Type} : Body ν ω → Bool
  | seq first second => first.isFlat && second.isFlat
  | ifThen _ | ifElse _ _ | beginUntil _ | beginAgain _ => false
  | _ => true

def spelling : Body String String → List String
  | empty => []
  | seq first second => first.spelling ++ second.spelling
  | literal token => [token]
  | word name => [name]
  | ifThen yes => "IF" :: (yes.spelling ++ ["THEN"])
  | ifElse yes no => "IF" :: (yes.spelling ++ "ELSE" :: (no.spelling ++ ["THEN"]))
  | beginUntil body => "BEGIN" :: (body.spelling ++ ["UNTIL"])
  | beginAgain body => "BEGIN" :: (body.spelling ++ ["AGAIN"])

/-- The threaded code of a body. An offset is counted from its own cell: forward branches go past the
cells that they skip, backward ones to the first cell of the loop. -/
def code (links : Branches) : Body Word Word → List Cell
  | empty => []
  | seq first second => first.code links ++ second.code links
  | literal n => [.builtin .lit, .int n]
  | word w => [.ref w]
  | ifThen yes =>
    [.ref links.zeroBranch, .int (Int64.ofNat ((yes.code links).length + 1))] ++ yes.code links
  | ifElse yes no =>
    [.ref links.zeroBranch, .int (Int64.ofNat ((yes.code links).length + 3))] ++ yes.code links ++
      ([.ref links.branch, .int (Int64.ofNat ((no.code links).length + 1))] ++ no.code links)
  | beginUntil body =>
    body.code links ++
      [.ref links.zeroBranch, .int (-Int64.ofNat ((body.code links).length + 1))]
  | beginAgain body =>
    body.code links ++ [.ref links.branch, .int (-Int64.ofNat ((body.code links).length + 1))]

section Layout

variable {links : Branches} {m : Memory} {a : Word} {x y : Body Word Word}

@[simp] theorem length_code_ifThen : ((ifThen x).code links).length = (x.code links).length + 2 := by
  simp [code]

@[simp] theorem length_code_ifElse : ((ifElse x y).code links).length =
    (x.code links).length + (y.code links).length + 4 := by
  simp only [code, List.length_append, List.length_cons, List.length_nil]
  omega

@[simp] theorem length_code_beginUntil :
    ((beginUntil x).code links).length = (x.code links).length + 2 := by
  simp [code]

@[simp] theorem length_code_beginAgain :
    ((beginAgain x).code links).length = (x.code links).length + 2 := by
  simp [code]

/-- Where the code of a conditional lies, that of its part lies behind the branch. -/
theorem holds_ifThen (h : m.Holds a ((ifThen x).code links)) :
    m.Holds a [.ref links.zeroBranch, .int (Int64.ofNat ((x.code links).length + 1))] ∧
      m.Holds (a.plus 2) (x.code links) :=
  Memory.holds_append.mp h

/-- Where the code of a conditional lies, those of its two parts lie behind one branch each. -/
theorem holds_ifElse (h : m.Holds a ((ifElse x y).code links)) :
    m.Holds a [.ref links.zeroBranch, .int (Int64.ofNat ((x.code links).length + 3))] ∧
      m.Holds (a.plus 2) (x.code links) ∧
      m.Holds (a.plus (2 + (x.code links).length))
        [.ref links.branch, .int (Int64.ofNat ((y.code links).length + 1))] ∧
      m.Holds (a.plus (2 + (x.code links).length + 2)) (y.code links) := by
  obtain ⟨hfirst, hsecond⟩ := Memory.holds_append.mp h
  obtain ⟨hhead, hx⟩ := Memory.holds_append.mp hfirst
  have hlen : ([.ref links.zeroBranch, .int (Int64.ofNat ((x.code links).length + 3))] ++
      x.code links : List Cell).length = 2 + (x.code links).length := by
    rw [List.length_append]
    rfl
  rw [hlen] at hsecond
  obtain ⟨hover, hy⟩ := Memory.holds_append.mp hsecond
  rw [Word.plus_plus] at hy
  exact ⟨hhead, hx, hover, hy⟩

/-- The offset at the end of a loop leads back to its first cell. -/
theorem loop_offset (a : Word) (n : Nat) : (a.plus n).plus 1 + -Int64.ofNat (n + 1) = a := by
  have h := Word.plus_add_neg_ofNat a 0 (n + 1)
  simpa using h

end Layout

/-- The body with its numbers read and its names looked up: a name stands for the code field of a
visible word that is not immediate, and what is read as a number is not a visible name. -/
def resolve? (d : Dictionary) : Body String String → Option (Body Word Word)
  | empty => some .empty
  | seq first second => do
    let a ← first.resolve? d
    let b ← second.resolve? d
    pure (.seq a b)
  | literal token =>
    match d.find? token with
    | some _ => none
    | none => (Numeral.decimal? token.toList).map .literal
  | word name =>
    match d.find? name with
    | some e => if e.flags.immediate then none else some (.word e.code)
    | none => none
  | ifThen yes => do
    let a ← yes.resolve? d
    pure (.ifThen a)
  | ifElse yes no => do
    let a ← yes.resolve? d
    let b ← no.resolve? d
    pure (.ifElse a b)
  | beginUntil body => do
    let a ← body.resolve? d
    pure (.beginUntil a)
  | beginAgain body => do
    let a ← body.resolve? d
    pure (.beginAgain a)

end Body

end ForthMachine
