import ForthMachine.Proofs.Machine.Dispatch

/-!
How deep the words of one step are nested. A word that hands over has used up a cell of the stack or a
character of the input. So words cannot hand over to one another for ever, and a step that starts with `d`
cells on the stack and `r` characters in the input comes to its end after at most `d + r + 1` words,
whether EXECUTE runs EXECUTE or INTERPRET, or INTERPRET reads the name of either.
-/

namespace ForthMachine

namespace Machine

/-- A primitive that is about to run: its code field, and the machine that it finds. -/
structure Call where
  code : Word
  primitive : Primitive
  machine : Machine

/-- What becomes of the result of an inner word in the word that has handed over to it: a failure that has
no name yet gets the name of the outer word. -/
def passOn (name : String) :
    EStateM.Result Failure Machine Unit → EStateM.Result Failure Machine Unit
  | .ok () m => .ok () m
  | .error f m => .error (f.inWord name) m

namespace Call

inductive Nested : Call → Call → Prop where
  | intro {w code : Word} {p q : Primitive} {m m' : Machine} : p.perform w m = .ok (some code) m' →
      m'.state.memory[code]? = some (.prim (some q)) →
      Nested ⟨code, q, { m' with console := m'.console.note ("-> " ++ q.name ++ " ") }⟩ ⟨w, p, m⟩

/-- A call comes to an end with a result after a number of calls, itself included. It ends by itself, or as
the call to which it hands over; there is no bound on how often that happens. -/
inductive Ends : Call → Nat → EStateM.Result Failure Machine Unit → Prop where
  | done {w : Word} {p : Primitive} {m m' : Machine} : p.perform w m = .ok none m' →
      Ends ⟨w, p, m⟩ 1 (.ok () m')
  | raised {w : Word} {p : Primitive} {m m' : Machine} {f : Failure} : p.perform w m = .error f m' →
      Ends ⟨w, p, m⟩ 1 (.error (f.inWord p.name) m')
  | misdirected {w code : Word} {p : Primitive} {m m' : Machine} {f : Failure} :
      p.perform w m = .ok (some code) m' → codeField code m'.state = .error f m'.state →
      Ends ⟨w, p, m⟩ 1 (.error (f.inWord p.name) m')
  | nested {outer inner : Call} {n : Nat} {r : EStateM.Result Failure Machine Unit} :
      Nested inner outer → Ends inner n r → Ends outer (n + 1) (passOn outer.primitive.name r)

variable {inner outer call : Call} {n n' : Nat} {r r' : EStateM.Result Failure Machine Unit}

/-- A call that is nested in another one has less to use up. -/
theorem Nested.patience (h : Nested inner outer) : inner.machine.patience < outer.machine.patience := by
  obtain ⟨hp, -⟩ := h
  rw [patience_note]
  exact patience_of_perform hp

/-- Calls cannot hand over to one another for ever. -/
theorem wellFounded_nested : WellFounded Nested :=
  Subrelation.wf Nested.patience (measure fun call : Call => call.machine.patience).wf

/-- A call hands over to one call at most. -/
theorem Nested.unique {inner' : Call} (h : Nested inner outer) (h' : Nested inner' outer) :
    inner = inner' := by
  obtain ⟨hp, hq⟩ := h
  obtain ⟨hp', hq'⟩ := h'
  cases hp.symm.trans hp'
  cases hq.symm.trans hq'
  rfl

/-- A call that hands over is not at its end. -/
theorem Nested.not_keeps (h : Nested inner outer) : ¬Keeps outer.code outer.primitive outer.machine := by
  obtain ⟨hp, hq⟩ := h
  exact fun hk => hk _ _ hp _ hq

/-- A call that ends by itself is the only one, and hands over to no other. -/
theorem Ends.cases_nested (h : call.Ends n r) : n = 1 ∧ Keeps call.code call.primitive call.machine ∨
    ∃ inner k r₁, Nested inner call ∧ inner.Ends k r₁ ∧ n = k + 1 := by
  cases h with
  | done hp => exact .inl ⟨rfl, fun _ _ hok => nomatch hp.symm.trans hok⟩
  | raised hp => exact .inl ⟨rfl, keeps_of_error hp⟩
  | misdirected hp hf =>
    refine .inl ⟨rfl, fun code m' hok q hq => ?_⟩
    cases hp.symm.trans hok
    cases hf.symm.trans (codeField_of_getElem? hq)
  | nested hn he => exact .inr ⟨_, _, _, hn, he, rfl⟩

/-- Every call comes to an end. -/
theorem exists_ends (call : Call) : ∃ n r, call.Ends n r := by
  induction call using wellFounded_nested.induction with
  | _ call ih =>
    obtain ⟨w, p, m⟩ := call
    cases hp : p.perform w m with
    | error f m' => exact ⟨1, _, .raised hp⟩
    | ok next m' =>
      cases next with
      | none => exact ⟨1, _, .done hp⟩
      | some code =>
        rcases codeField_apply code m'.state with ⟨q, hq, -⟩ | ⟨f, hf⟩
        · have hn := Nested.intro hp hq
          obtain ⟨n, r, he⟩ := ih _ hn
          exact ⟨n + 1, _, .nested hn he⟩
        · exact ⟨1, _, .misdirected hp hf⟩

/-- What a call gives is what the inner call gives, with the name of the outer word added. -/
theorem Nested.invoke (h : Nested inner outer) :
    Machine.invoke outer.code outer.primitive outer.machine =
      passOn outer.primitive.name (Machine.invoke inner.code inner.primitive inner.machine) := by
  obtain ⟨hp, hq⟩ := h
  rw [invoke_eq, Action.inWord_apply, Action.bind_apply]
  simp only [hp, dispatch_of_field hq]
  generalize Machine.invoke _ _ _ = result
  cases result <;> rfl

/-- The end of a call is that of the primitive with the bound that a step sets. -/
theorem Ends.eq_invoke (h : call.Ends n r) : r = invoke call.code call.primitive call.machine := by
  induction h with
  | done hp => rw [invoke_of_perform hp]
  | raised hp => rw [invoke_of_perform_error hp]
  | misdirected hp hf =>
    rw [invoke_eq, Action.inWord_apply, Action.bind_apply]
    simp only [hp, dispatch_of_error hf]
  | nested hn _ ih => rw [hn.invoke, ih]

/-- Each call inside another has less to hand over for. -/
theorem Ends.count_le (h : call.Ends n r) : n ≤ call.machine.patience + 1 := by
  induction h with
  | done _ | raised _ | misdirected _ _ => exact Nat.le_add_left 1 _
  | nested hn _ ih =>
    have hless := hn.patience
    omega

/-- The number of calls is determined. -/
theorem Ends.count_unique (h : call.Ends n r) (h' : call.Ends n' r') : n = n' := by
  induction call using wellFounded_nested.induction generalizing n n' r r' with
  | _ call ih =>
    rcases h.cases_nested with ⟨rfl, hk⟩ | ⟨inner, k, r₁, hn, he, rfl⟩
    · rcases h'.cases_nested with ⟨rfl, -⟩ | ⟨inner', k', r₁', hn', -, -⟩
      · rfl
      · exact absurd hk hn'.not_keeps
    · rcases h'.cases_nested with ⟨-, hk'⟩ | ⟨inner', k', r₁', hn', he', rfl⟩
      · exact absurd hk' hn.not_keeps
      · obtain rfl := hn.unique hn'
        rw [ih inner hn he he']

end Call

/-- The step from `m` runs a number of primitives and ends with a result. It runs none if there is no cell
that can be run; otherwise it ends as the call of the first primitive does. -/
inductive Takes (m : Machine) : Nat → EStateM.Result Trap Machine Unit → Prop where
  | unwritten : m.state.memory[m.state.ip]? = none →
      Takes m 0 (.error (bind (.atAddress .unwrittenAddress m.state.ip) m.state m.state "") m)
  | unresolved {c : Cell} {t : Trap} : m.state.memory[m.state.ip]? = some c →
      resolve m.state m.state.ip c = .error t →
      Takes m 0 (.error (bind (.trap t) m.state m.state "") m)
  | called {c : Cell} {w : Word} {p : Primitive} {n : Nat} {r : EStateM.Result Failure Machine Unit} :
      m.state.memory[m.state.ip]? = some c → resolve m.state m.state.ip c = .ok (w, p) →
      Call.Ends ⟨w, p, m.begin p⟩ n r → Takes m n (conclude m p.name r)

variable {m : Machine} {n n' : Nat} {r r' : EStateM.Result Trap Machine Unit}

theorem patience_begin (m : Machine) (p : Primitive) : (m.begin p).patience = m.patience := by
  simp [patience, Machine.begin, Console.remaining]

/-- Every step comes to its end. -/
theorem exists_takes (m : Machine) : ∃ n r, m.Takes n r := by
  cases hc : m.state.memory[m.state.ip]? with
  | none => exact ⟨0, _, .unwritten hc⟩
  | some c =>
    cases hr : resolve m.state m.state.ip c with
    | error t => exact ⟨0, _, .unresolved hc hr⟩
    | ok wp =>
      obtain ⟨n, r, he⟩ := Call.exists_ends ⟨wp.1, wp.2, m.begin wp.2⟩
      exact ⟨n, _, .called hc hr he⟩

/-- A step that comes to its end by the calls has the result of the machine. -/
theorem Takes.eq_step (h : m.Takes n r) : r = step m := by
  cases h with
  | unwritten hc => simp only [step, hc]
  | unresolved hc hr => simp only [step, hc, hr]
  | called hc hr he => rw [step_eq_conclude hc hr, he.eq_invoke]

/-- No step runs more primitives than there is to use up, and one more. -/
theorem Takes.count_le (h : m.Takes n r) : n ≤ m.patience + 1 := by
  cases h with
  | unwritten _ | unresolved _ _ => exact Nat.zero_le _
  | called _ _ he =>
    have hle := he.count_le
    rwa [patience_begin] at hle

theorem Takes.count_unique (h : m.Takes n r) (h' : m.Takes n' r') : n = n' := by
  cases h with
  | unwritten hc =>
    cases h' with
    | unwritten _ => rfl
    | unresolved hc' _ | called hc' _ _ => cases hc.symm.trans hc'
  | unresolved hc hr =>
    cases h' with
    | unwritten hc' => cases hc.symm.trans hc'
    | unresolved _ _ => rfl
    | called hc' hr' _ =>
      cases hc.symm.trans hc'
      cases hr.symm.trans hr'
  | called hc hr he =>
    cases h' with
    | unwritten hc' => cases hc.symm.trans hc'
    | unresolved hc' hr' =>
      cases hc.symm.trans hc'
      cases hr.symm.trans hr'
    | called hc' hr' he' =>
      cases hc.symm.trans hc'
      cases hr.symm.trans hr'
      exact he.count_unique he'

/-- A step always ends. Whenever a word hands over, there are fewer cells and characters left than before
it, so the nesting of calls is well founded. Followed without any bound on the nesting, the words of a step
come to one end, which is the step that the machine makes, and they are no more than the cells on the stack
and the characters in the input, and one. -/
theorem step_comes_to_its_end (m : Machine) :
    (∀ (w code : Word) (p : Primitive) (m₁ m₂ : Machine), p.perform w m₁ = .ok (some code) m₂ →
      m₂.state.stack.length + m₂.console.remaining < m₁.state.stack.length + m₁.console.remaining) ∧
    WellFounded Call.Nested ∧
    ∃ n, n ≤ m.state.stack.length + m.console.remaining + 1 ∧
      ∀ k r, m.Takes k r ↔ k = n ∧ r = step m := by
  refine ⟨fun w code p m₁ m₂ => patience_of_perform, Call.wellFounded_nested, ?_⟩
  obtain ⟨n, r, h⟩ := exists_takes m
  refine ⟨n, h.count_le, fun k r' => ⟨fun h' => ⟨h'.count_unique h, h'.eq_step⟩, ?_⟩⟩
  rintro ⟨rfl, rfl⟩
  rw [← h.eq_step]
  exact h

end Machine

namespace MutualCalls

open Machine

/-- A machine about to execute INTERPRET, which reads the name of EXECUTE. One cell is on the stack, and one
character is in the input. -/
def machine : Machine where
  state := {
    ip := 10
    nip := 11
    memory := Memory.load ∅ 10 [.builtin .execute, .builtin .interpret]
    dictionary := .ofList [{ name := "E", code := 10 }]
    stack := [.addr 11] }
  console := { input := some { rest := ['E'] } }

theorem takes_machine : ∃ r, machine.Takes 3 r := by
  have hfirst : machine.state.memory[machine.state.ip]? = some (.builtin .execute) := rfl
  exact ⟨_, .called hfirst rfl (.nested (.intro rfl rfl) (.nested (.intro rfl rfl) (.raised rfl)))⟩

end MutualCalls

namespace Machine

open MutualCalls

/-- Three words, one inside the other, for one cell and one character: the bound is reached. -/
theorem mutual_calls_reach_the_bound :
    machine.state.stack.length + machine.console.remaining + 1 = 3 ∧ machine.Takes 3 (step machine) := by
  refine ⟨rfl, ?_⟩
  obtain ⟨-, -, n, -, htakes⟩ := step_comes_to_its_end machine
  obtain ⟨r, hthree⟩ := takes_machine
  obtain ⟨hn, -⟩ := (htakes 3 r).mp hthree
  exact (htakes 3 _).mpr ⟨hn, rfl⟩

end Machine

end ForthMachine
