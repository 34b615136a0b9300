import ForthMachine.Proofs.Machine.Thread
import ForthMachine.Proofs.Stack.Rotation
import ForthMachine.Proofs.Structured.Evaluation

namespace ForthMachine

namespace Operation

open Machine State

def Change.result : Change → EStateM.Result Failure (Stack Cell) Unit
  | .leave s => .ok () s
  | .stop kind s => .error (.ofKind kind) s

/-- Words on two numbers take and leave what the operation does. -/
theorem binary_apply (f : Word → Word → Cell) (s : Stack Cell) :
    Operand.binary f s = (numbers (fun m n s => .leave (f m n :: s)) s).result := by
  match s with
  | [] => rfl
  | [_] => rfl
  | y :: x :: s =>
    cases hy : y.number? <;> cases hx : x.number? <;>
      simp [Operand.binary, numbers, hy, hx, Change.result]

/-- A division by zero has taken both numbers here as well. -/
theorem divMod_apply (s : Stack Cell) : Calculation.divMod s = (divMod.change s).result := by
  match s with
  | [] => rfl
  | [_] => rfl
  | y :: x :: s =>
    cases hy : y.number? with
    | none => simp [Calculation.divMod, change, numbers, hy, Change.result]
    | some n =>
      cases hx : x.number? with
      | none => simp [Calculation.divMod, change, numbers, hy, hx, Change.result]
      | some m =>
        by_cases hn : n = 0 <;>
          simp [Calculation.divMod, change, numbers, hy, hx, Change.result, hn]

theorem dup_apply (s : Stack Cell) : Calculation.dup s = (dup.change s).result := by
  have hp := Stack.pick_of_toInt s (show (0 : Word).toInt = (0 : Nat) from rfl)
  rw [Calculation.dup, Operand.rearrange_apply]
  simp only [hp]
  match s with
  | [] => rfl
  | _ :: _ => rfl

theorem copySecond_apply (s : Stack Cell) :
    Calculation.copySecond s = (copySecond.change s).result := by
  have hp := Stack.pick_of_toInt s (show (1 : Word).toInt = (1 : Nat) from rfl)
  rw [Calculation.copySecond, Operand.rearrange_apply]
  simp only [hp]
  match s with
  | [] => rfl
  | [_] => rfl
  | _ :: _ :: _ => rfl

theorem swap_apply (s : Stack Cell) : Calculation.swap s = (swap.change s).result := by
  have hp := Stack.roll_of_toInt s (show (1 : Word).toInt = (1 : Nat) from rfl)
  rw [Calculation.swap, Operand.rearrange_apply]
  simp only [hp]
  match s with
  | [] => rfl
  | [_] => rfl
  | _ :: _ :: _ => rfl

theorem rot_apply (s : Stack Cell) : Calculation.rot s = (rot.change s).result := by
  have hp := Stack.roll_of_toInt s (show (2 : Word).toInt = (2 : Nat) from rfl)
  rw [Calculation.rot, Operand.rearrange_apply]
  simp only [hp]
  match s with
  | [] => rfl
  | [_] => rfl
  | [_, _] => rfl
  | _ :: _ :: _ :: _ => rfl

theorem negate_apply (s : Stack Cell) : Calculation.negate s = (negate.change s).result := by
  match s with
  | [] => rfl
  | x :: s => cases hx : x.number? <;> simp [Calculation.negate, change, hx, Change.result]

theorem equals_apply (s : Stack Cell) : Calculation.equals s = (equals.change s).result := by
  match s with
  | [] => rfl
  | [_] => rfl
  | y :: x :: s => simp [Calculation.equals, change, Change.result]

def stackAction? : Operation → Option (Action (Stack Cell) Unit)
  | drop => some Calculation.drop
  | dup => some Calculation.dup
  | copySecond => some Calculation.copySecond
  | swap => some Calculation.swap
  | rot => some Calculation.rot
  | depth => some Calculation.depth
  | plus => some Calculation.plus
  | minus => some Calculation.minus
  | times => some Calculation.times
  | divMod => some Calculation.divMod
  | negate => some Calculation.negate
  | equals => some Calculation.equals
  | less => some Calculation.less
  | zeroEquals => some Calculation.zeroEquals
  | emit | dot | cr => none

/-- Each word on the stack alone does what its operation does. -/
theorem stackAction?_apply {op : Operation} {x : Action (Stack Cell) Unit}
    (h : op.stackAction? = some x) (s : Stack Cell) : x s = (op.change s).result := by
  cases op <;> simp only [stackAction?, Option.some.injEq, reduceCtorEq] at h <;> subst h
  case drop => cases s <;> rfl
  case dup => exact dup_apply s
  case copySecond => exact copySecond_apply s
  case swap => exact swap_apply s
  case rot => exact rot_apply s
  case depth => rfl
  case plus => exact binary_apply _ s
  case minus => exact binary_apply _ s
  case times => exact binary_apply _ s
  case divMod => exact divMod_apply s
  case negate => exact negate_apply s
  case equals => exact equals_apply s
  case less => exact binary_apply _ s
  case zeroEquals => cases s <;> rfl

theorem builtin_contract (op : Operation) : op.builtin.contract = .ordinary := by
  cases op <;> rfl

theorem perform_of_stackAction? {op : Operation} {x : Action (Stack Cell) Unit}
    (h : op.stackAction? = some x) (w : Word) :
    op.builtin.perform w = Builtin.perform.onState (State.onStack x) := by
  cases op <;> simp only [stackAction?, Option.some.injEq, reduceCtorEq] at h <;> subst h <;> rfl

def put (m : Machine) (s : Stack Cell) (o : Sink) : Machine where
  state := { m.state with stack := s }
  console := { m.console with output := o }

def Realized (m : Machine) (name : String) :
    Effect → EStateM.Result Failure Machine (Option Word) → Prop
  | .done s o, r => r = .ok none (put m s o)
  | .trapped kind word s o, r =>
    word = name ∧ ∃ t : Trap, r = .error (.trap t) (put m s o) ∧ t.word = "" ∧ t.kind = kind

/-- Writing passes the text on, or stops with the reason for which it was refused. -/
theorem write_apply (piece : String) (m : Machine) :
    Terminal.write piece m =
      match m.console.output.write piece with
      | (none, o) => .ok () (put m m.state.stack o)
      | (some reason, o) =>
        .error (.trap { kind := .ioFailure, cause := some reason }) (put m m.state.stack o) := by
  simp only [Terminal.write, onConsole_apply, Action.bind_apply, Action.get_apply, Action.set_apply]
  obtain ⟨refused, o⟩ := m.console.output.write piece
  cases refused <;> rfl

/-- After its operands have been taken, an operation that writes ends as the output decides. -/
theorem realized_write {op : Operation} {s s' : Stack Cell} {text : String} {m : Machine}
    (hc : op.change s = .leave s') (ht : op.text? s = some text) :
    Realized m op.builtin.name (op.effect s m.console.output)
      (Builtin.perform.finish (Terminal.write text)
        { m with state := { m.state with stack := s' } }) := by
  rw [Builtin.perform_finish_apply, write_apply]
  simp only [effect, hc, ht]
  obtain ⟨refused, o⟩ := m.console.output.write text
  cases refused with
  | none => rfl
  | some reason => exact ⟨rfl, _, rfl, rfl, rfl⟩

/-- EMIT has taken its cell when the output refuses the character. -/
theorem realized_emit (w : Word) (m : Machine) :
    Realized m emit.builtin.name (emit.effect m.state.stack m.console.output)
      (emit.builtin.perform w m) := by
  have hp : emit.builtin.perform w m = Builtin.perform.finish Terminal.emit m := rfl
  rw [hp]
  cases hs : m.state.stack with
  | nil =>
    refine ⟨rfl, { kind := .stackUnderflow }, ?_, rfl, rfl⟩
    rw [Builtin.perform_finish_apply]
    simp only [Terminal.emit, Action.bind_apply, onState_apply, onStack_apply, hs, Operand.cell_nil]
    rfl
  | cons c s =>
    cases hc : c.code? with
    | none =>
      have hstop : emit.effect (c :: s) m.console.output =
          .trapped .typeMismatch emit.builtin.name s m.console.output := by
        simp [effect, change, hc]
      rw [hstop]
      refine ⟨rfl, { kind := .typeMismatch }, ?_, rfl, rfl⟩
      rw [Builtin.perform_finish_apply]
      simp only [Terminal.emit, Action.bind_apply, onState_apply, onStack_apply, hs,
        Operand.cell_cons, hc, Action.orRaise_none, Action.raise_apply]
      rfl
    | some code =>
      have htake : Terminal.emit m = Terminal.write (String.singleton (Text.charOfCode code))
          { m with state := { m.state with stack := s } } := by
        simp only [Terminal.emit, Action.bind_apply, onState_apply, onStack_apply, hs,
          Operand.cell_cons, hc, Action.orRaise_some, Action.pure_apply]
      rw [Builtin.perform_finish_apply, htake, ← Builtin.perform_finish_apply]
      exact realized_write (by simp [change, hc]) (by simp [text?, hc])

/-- The dot has taken its cell when the output refuses the text. -/
theorem realized_dot (w : Word) (m : Machine) :
    Realized m dot.builtin.name (dot.effect m.state.stack m.console.output)
      (dot.builtin.perform w m) := by
  have hp : dot.builtin.perform w m = Builtin.perform.finish Terminal.dot m := rfl
  rw [hp]
  cases hs : m.state.stack with
  | nil =>
    refine ⟨rfl, { kind := .stackUnderflow }, ?_, rfl, rfl⟩
    rw [Builtin.perform_finish_apply]
    simp only [Terminal.dot, Action.bind_apply, onState_apply, onStack_apply, hs, Operand.cell_nil]
    rfl
  | cons c s =>
    have htake : Terminal.dot m = Terminal.write (c.render ++ " ")
        { m with state := { m.state with stack := s } } := by
      simp only [Terminal.dot, Action.bind_apply, onState_apply, onStack_apply, hs, Operand.cell_cons]
    rw [Builtin.perform_finish_apply, htake, ← Builtin.perform_finish_apply]
    exact realized_write rfl rfl

theorem realized_cr (w : Word) (m : Machine) :
    Realized m cr.builtin.name (cr.effect m.state.stack m.console.output)
      (cr.builtin.perform w m) := by
  have hp : cr.builtin.perform w m = Builtin.perform.finish (Terminal.write "\n") m := rfl
  rw [hp]
  exact realized_write rfl rfl

/-- A built-in word has the effect of its operation. -/
theorem realized_perform (op : Operation) (w : Word) (m : Machine) :
    Realized m op.builtin.name (op.effect m.state.stack m.console.output) (op.builtin.perform w m) := by
  cases hx : op.stackAction? with
  | some x =>
    have htext : op.text? m.state.stack = none := by
      cases op with
      | emit | dot | cr => cases hx
      | _ => rfl
    rw [perform_of_stackAction? hx, Builtin.perform_onState_apply, onStack_apply,
      stackAction?_apply hx, effect, htext]
    cases op.change m.state.stack with
    | leave s => rfl
    | stop kind s => exact ⟨rfl, _, rfl, rfl, rfl⟩
  | none =>
    cases op <;> simp only [stackAction?, reduceCtorEq] at hx
    case emit => exact realized_emit w m
    case dot => exact realized_dot w m
    case cr => exact realized_cr w m

variable {M : Memory} {D : Dictionary} {a w : Word} {R : Stack Word} {S S' : Stack Cell}
  {input : Option Source} {o o' : Sink} {op : Operation}

/-- A reference to a word on the stack alone, in threaded code. -/
theorem leads_of_change {output : Option Sink} {x : Action (Stack Cell) Unit}
    (hx : op.stackAction? = some x) (hs : op.change S = .leave S') (hc : M[a]? = some (.ref w))
    (hf : M[w]? = some (.builtin op.builtin)) :
    Leads (Shows (running M D a R S) input output)
      (Shows (running M D (a.plus 1) R S') input output) := by
  apply leads_ordinary hc hf (perform_of_stackAction? hx w) (builtin_contract op)
  rw [onStack_apply]
  simp only [running, stackAction?_apply hx, hs, Change.result]

theorem shows_put {m : Machine} (h : Shows (running M D a R S) input (some o) m) (S' : Stack Cell)
    (o' : Sink) : Shows (running M D a R S') input (some o') (put m S' o') := by
  refine ⟨?_, h.input, ?_⟩
  · rw [put, h.state]
    rfl
  · intro o'' ho
    cases ho
    exact ⟨(h.output o rfl).1, rfl⟩

/-- A built-in word goes through when its operation does. -/
theorem performs_of_done (he : op.effect S o = .done S' o') :
    Performs w (.builtin op.builtin) (Shows (running M D a R S) input (some o))
      (Shows (running M D (a.plus 1) R S') input (some o')) := by
  intro m hm
  have hr := realized_perform op w m
  rw [hm.state, (hm.output o rfl).2] at hr
  have hstack : (running M D a R S).stack = S := rfl
  rw [hstack, he] at hr
  have hput := shows_put hm S' o'
  refine ⟨{ put m S' o' with state := running M D (a.plus 1) R S' }, ?_, hput.withState _⟩
  have hperform : op.builtin.perform w m = .ok none (put m S' o') := hr
  simp only [Primitive.perform, builtin_contract, Action.bind_apply, hperform, onState_apply,
    advance_apply, hput.state, Action.pure_apply]
  rfl

theorem name_of_trapped {kind : Trap.Kind} {name : String}
    (he : op.effect S o = .trapped kind name S' o') : name = op.builtin.name := by
  unfold effect at he
  split at he
  · cases he
    rfl
  · split at he
    · cases he
    · split at he
      · cases he
      · cases he
        rfl

/-- A built-in word raises the trap in which its operation ends. -/
theorem raises_of_trapped {kind : Trap.Kind} {name : String}
    (he : op.effect S o = .trapped kind name S' o') :
    Raises w (.builtin op.builtin) (Shows (running M D a R S) input (some o)) kind
      (Shows (running M D a R S') input (some o')) := by
  intro m hm
  have hr := realized_perform op w m
  rw [hm.state, (hm.output o rfl).2] at hr
  have hstack : (running M D a R S).stack = S := rfl
  rw [hstack, he] at hr
  obtain ⟨-, t, hperform, hword, hkind⟩ := hr
  refine ⟨t, put m S' o', ?_, hword, hkind, shows_put hm S' o'⟩
  simp only [Primitive.perform, builtin_contract, Action.bind_apply, hperform]

end Operation

end ForthMachine
