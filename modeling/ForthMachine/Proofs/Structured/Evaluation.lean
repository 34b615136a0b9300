import ForthMachine.Machine.Step
import ForthMachine.Proofs.Structured.Body

namespace ForthMachine

/-- How a body ends: with a stack and an output, or with a trap in a word, which leaves both as far as
they got. -/
inductive Effect where
  | done (stack : Stack Cell) (output : Sink)
  | trapped (kind : Trap.Kind) (word : String) (stack : Stack Cell) (output : Sink)

inductive Operation where
  | drop | dup | copySecond | swap | rot | depth
  | plus | minus | times | divMod | negate
  | equals | less | zeroEquals
  | emit | dot | cr
  deriving DecidableEq, Repr

namespace Operation

def builtin : Operation → Builtin
  | drop => .drop
  | dup => .dup
  | copySecond => .copySecond
  | swap => .swap
  | rot => .rot
  | depth => .depth
  | plus => .plus
  | minus => .minus
  | times => .times
  | divMod => .divMod
  | negate => .negate
  | equals => .equals
  | less => .less
  | zeroEquals => .zeroEquals
  | emit => .emit
  | dot => .dot
  | cr => .cr

def all : List Operation := [drop, dup, copySecond, swap, rot, depth, plus, minus, times, divMod,
  negate, equals, less, zeroEquals, emit, dot, cr]

inductive Change where
  | leave (stack : Stack Cell)
  | stop (kind : Trap.Kind) (stack : Stack Cell)

/-- Takes two numbers from the stack, the second one from the top. A cell that is no number has been
taken when this is noticed. -/
def numbers (f : Word → Word → Stack Cell → Change) : Stack Cell → Change
  | y :: x :: s =>
    match y.number? with
    | none => .stop .typeMismatch (x :: s)
    | some n =>
      match x.number? with
      | none => .stop .typeMismatch s
      | some m => f m n s
  | s => .stop .stackUnderflow s

def change : Operation → Stack Cell → Change
  | drop, _ :: s => .leave s
  | dup, x :: s => .leave (x :: x :: s)
  | copySecond, y :: x :: s => .leave (x :: y :: x :: s)
  | swap, y :: x :: s => .leave (x :: y :: s)
  | rot, z :: y :: x :: s => .leave (x :: z :: y :: s)
  | depth, s => .leave (.int (Int64.ofNat s.length) :: s)
  | plus, s => numbers (fun m n s => .leave (.int (m + n) :: s)) s
  | minus, s => numbers (fun m n s => .leave (.int (m - n) :: s)) s
  | times, s => numbers (fun m n s => .leave (.int (m * n) :: s)) s
  | divMod, s =>
    numbers (fun m n s =>
      if n = 0 then .stop .zeroDivision s else .leave (.int (m / n) :: .int (m % n) :: s)) s
  | negate, x :: s =>
    match x.number? with
    | none => .stop .typeMismatch s
    | some n => .leave (.int (-n) :: s)
  | equals, y :: x :: s => .leave (.ofBool (x.sameAs y) :: s)
  | less, s => numbers (fun m n s => .leave (.ofBool (m < n) :: s)) s
  | zeroEquals, x :: s => .leave (.ofBool x.isFalse :: s)
  | emit, x :: s => if x.code?.isSome then .leave s else .stop .typeMismatch s
  | dot, _ :: s => .leave s
  | cr, s => .leave s
  | _, s => .stop .stackUnderflow s

def text? : Operation → Stack Cell → Option String
  | emit, x :: _ => x.code?.map fun code => String.singleton (Text.charOfCode code)
  | dot, x :: _ => some (x.render ++ " ")
  | cr, _ => some "\n"
  | _, _ => none

/-- The effect of an operation. Text that the output refuses makes it a trap; the operands have been
taken then. -/
def effect (op : Operation) (s : Stack Cell) (o : Sink) : Effect :=
  match op.change s with
  | .stop kind s => .trapped kind op.builtin.name s o
  | .leave s' =>
    match op.text? s with
    | none => .done s' o
    | some text =>
      match o.write text with
      | (none, o) => .done s' o
      | (some _, o) => .trapped .ioFailure op.builtin.name s' o

end Operation

/-- What a reference in a body runs: an operation, or a definition with a body of its own. -/
inductive Meaning where
  | operation (op : Operation)
  | definition (body : Body Word Word)
  deriving DecidableEq, Repr

namespace Body

/-- The body, run on a stack and an output, has an effect. `words` gives the meanings of the words
that it refers to. -/
inductive Eval (words : Word → Option Meaning) :
    Body Word Word → Stack Cell → Sink → Effect → Prop where
  | empty {s o} : Eval words .empty s o (.done s o)
  | seq {a b s o s' o' r} : Eval words a s o (.done s' o') → Eval words b s' o' r →
      Eval words (.seq a b) s o r
  | seqTrap {a b s o kind name s' o'} : Eval words a s o (.trapped kind name s' o') →
      Eval words (.seq a b) s o (.trapped kind name s' o')
  | literal {n s o} : Eval words (.literal n) s o (.done (.int n :: s) o)
  | operation {w op s o r} : words w = some (.operation op) → op.effect s o = r →
      Eval words (.word w) s o r
  | definition {w body s o r} : words w = some (.definition body) → Eval words body s o r →
      Eval words (.word w) s o r
  | ifThenEmpty {a o} :
      Eval words (.ifThen a) [] o (.trapped .stackUnderflow Builtin.zeroBranch.name [] o)
  | ifThenTrue {a c s o r} : c.isFalse = false → Eval words a s o r →
      Eval words (.ifThen a) (c :: s) o r
  | ifThenFalse {a c s o} : c.isFalse = true → Eval words (.ifThen a) (c :: s) o (.done s o)
  | ifElseEmpty {a b o} :
      Eval words (.ifElse a b) [] o (.trapped .stackUnderflow Builtin.zeroBranch.name [] o)
  | ifElseTrue {a b c s o r} : c.isFalse = false → Eval words a s o r →
      Eval words (.ifElse a b) (c :: s) o r
  | ifElseFalse {a b c s o r} : c.isFalse = true → Eval words b s o r →
      Eval words (.ifElse a b) (c :: s) o r
  | untilTrap {a s o kind name s' o'} : Eval words a s o (.trapped kind name s' o') →
      Eval words (.beginUntil a) s o (.trapped kind name s' o')
  | untilEmpty {a s o o'} : Eval words a s o (.done [] o') →
      Eval words (.beginUntil a) s o (.trapped .stackUnderflow Builtin.zeroBranch.name [] o')
  | untilTrue {a s o c s' o'} : Eval words a s o (.done (c :: s') o') → c.isFalse = false →
      Eval words (.beginUntil a) s o (.done s' o')
  | untilFalse {a s o c s' o' r} : Eval words a s o (.done (c :: s') o') → c.isFalse = true →
      Eval words (.beginUntil a) s' o' r → Eval words (.beginUntil a) s o r
  | againTrap {a s o kind name s' o'} : Eval words a s o (.trapped kind name s' o') →
      Eval words (.beginAgain a) s o (.trapped kind name s' o')
  | again {a s o s' o' r} : Eval words a s o (.done s' o') →
      Eval words (.beginAgain a) s' o' r → Eval words (.beginAgain a) s o r

def Total (words : Word → Option Meaning) (body : Body Word Word) : Prop :=
  ∀ s o, ∃ r, Eval words body s o r

section Total

variable {words : Word → Option Meaning} {a b : Body Word Word} {w : Word}

theorem total_empty : Total words .empty := fun _ _ => ⟨_, .empty⟩

theorem total_literal {n : Word} : Total words (.literal n) := fun _ _ => ⟨_, .literal⟩

/-- What has an effect can be put one after another. -/
theorem Total.seq (ha : Total words a) (hb : Total words b) : Total words (.seq a b) := by
  intro s o
  obtain ⟨r, hr⟩ := ha s o
  cases r with
  | done s' o' =>
    obtain ⟨r', hr'⟩ := hb s' o'
    exact ⟨r', .seq hr hr'⟩
  | trapped kind name s' o' => exact ⟨_, .seqTrap hr⟩

theorem total_operation {op : Operation} (hw : words w = some (.operation op)) :
    Total words (.word w) := fun _ _ => ⟨_, .operation hw rfl⟩

/-- A definition has an effect if its body has. -/
theorem total_definition (hw : words w = some (.definition a)) (ha : Total words a) :
    Total words (.word w) := by
  intro s o
  obtain ⟨r, hr⟩ := ha s o
  exact ⟨r, .definition hw hr⟩

/-- A conditional has an effect on every flag, and traps without one. -/
theorem Total.ifThen (ha : Total words a) : Total words (.ifThen a) := by
  intro s o
  cases s with
  | nil => exact ⟨_, .ifThenEmpty⟩
  | cons c s =>
    cases hc : c.isFalse with
    | true => exact ⟨_, .ifThenFalse hc⟩
    | false =>
      obtain ⟨r, hr⟩ := ha s o
      exact ⟨r, .ifThenTrue hc hr⟩

theorem Total.ifElse (ha : Total words a) (hb : Total words b) : Total words (.ifElse a b) := by
  intro s o
  cases s with
  | nil => exact ⟨_, .ifElseEmpty⟩
  | cons c s =>
    cases hc : c.isFalse with
    | true =>
      obtain ⟨r, hr⟩ := hb s o
      exact ⟨r, .ifElseFalse hc hr⟩
    | false =>
      obtain ⟨r, hr⟩ := ha s o
      exact ⟨r, .ifElseTrue hc hr⟩

end Total

end Body

def Effect.reasons : List Trap.Kind := [.stackUnderflow, .typeMismatch, .zeroDivision, .ioFailure]

namespace Operation

variable {s s' : Stack Cell} {kind : Trap.Kind}

/-- Taking two numbers stops for want of cells or at a cell of another sort. -/
theorem numbers_stop {f : Word → Word → Stack Cell → Change}
    (hf : ∀ m n s, f m n s = .stop kind s' → kind ∈ Effect.reasons)
    (h : numbers f s = .stop kind s') : kind ∈ Effect.reasons := by
  unfold numbers at h
  split at h
  · split at h
    · cases h
      decide
    · split at h
      · cases h
        decide
      · exact hf _ _ _ h
  · cases h
    decide

theorem change_stop {op : Operation} (h : op.change s = .stop kind s') : kind ∈ Effect.reasons := by
  cases op with
  | plus | minus | times | less => exact numbers_stop (by simp) h
  | divMod =>
    refine numbers_stop (fun m n s hd => ?_) h
    split at hd
    · cases hd
      decide
    · cases hd
  | drop | dup | copySecond | swap | rot | depth | negate | equals | zeroEquals | emit | dot | cr =>
    unfold change at h
    grind [Effect.reasons]

/-- An operation stops for a reason of its own or because its output refuses the text. -/
theorem effect_trapped {op : Operation} {o o' : Sink} {name : String}
    (h : op.effect s o = .trapped kind name s' o') : kind ∈ Effect.reasons := by
  unfold effect at h
  split at h
  · next hc =>
    cases h
    exact change_stop hc
  · split at h
    · cases h
    · split at h
      · cases h
      · cases h
        decide

end Operation

/-- No body asks the machine to stop, and none reads the input. -/
theorem Body.Eval.kind_of_trapped {words : Word → Option Meaning} {body : Body Word Word}
    {s : Stack Cell} {o : Sink} {r : Effect} (h : Body.Eval words body s o r) :
    ∀ kind name s' o', r = .trapped kind name s' o' → kind ∈ Effect.reasons := by
  induction h with
  | operation _ he =>
    intro kind name s' o' hr
    exact Operation.effect_trapped (he.trans hr)
  | seq _ _ _ ih => exact ih
  | definition _ _ ih => exact ih
  | ifThenTrue _ _ ih => exact ih
  | ifElseTrue _ _ ih => exact ih
  | ifElseFalse _ _ ih => exact ih
  | untilFalse _ _ _ _ ih => exact ih
  | again _ _ _ ih => exact ih
  | seqTrap _ ih => exact ih
  | untilTrap _ ih => exact ih
  | againTrap _ ih => exact ih
  | empty | literal | ifThenFalse | untilTrue =>
    intro kind name s' o' hr
    cases hr
  | ifThenEmpty | ifElseEmpty | untilEmpty =>
    intro kind name s' o' hr
    cases hr
    decide

end ForthMachine
