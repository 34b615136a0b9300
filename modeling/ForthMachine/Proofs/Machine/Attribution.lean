import ForthMachine.Proofs.Machine.Dispatch
import ForthMachine.Proofs.Words.Anonymity

namespace ForthMachine

namespace Machine

variable {m m' m₀ m₁ m₂ : Machine} {w code : Word} {p q : Primitive} {f : Failure}

def BuiltinOnly (m : Machine) : Prop :=
  ∀ (a : Word) (p : Primitive), m.state.memory[a]? = some (.prim (some p)) → ∃ b, p = .builtin b

/-- The step does not get as far as a primitive: the cell at the instruction pointer was never written, or
it cannot be run. -/
def Unresolved (m : Machine) : Prop :=
  ∀ c, m.state.memory[m.state.ip]? = some c → ∃ t, resolve m.state m.state.ip c = .error t

def Innermost (m : Machine) (p : Primitive) : Prop := ∃ w m₁, Runs m w p m₁ ∧ Keeps w p m₁

/-- A step has one primitive furthest in. -/
theorem Innermost.unique (hp : Innermost m p) (hq : Innermost m q) : p = q := by
  obtain ⟨w, m₁, hr, hk⟩ := hp
  obtain ⟨w', m₂, hr', hk'⟩ := hq
  obtain ⟨earlier, ht⟩ := hr.trail
  obtain ⟨earlier', ht'⟩ := hr'.trail
  exact (ht.unique_of_keeps hk ht' hk').2.2.1

/-- A step that does not get as far as a primitive runs none. -/
theorem not_runs_of_unresolved (hu : m.Unresolved) : ¬Runs m w p m₁ := by
  intro hr
  induction hr with
  | first hc hres =>
    obtain ⟨t, ht⟩ := hu _ hc
    cases hres.symm.trans ht
  | next _ _ _ ih => exact ih

theorem builtin_of_resolve {c : Cell} (hb : m.BuiltinOnly) (hc : m.state.memory[m.state.ip]? = some c)
    (hr : resolve m.state m.state.ip c = .ok (w, p)) : ∃ b, p = .builtin b := by
  have hprim {c : Cell} {a : Word} (hc : m.state.memory[a]? = some c) (hp : c.primitive? = some p) :
      ∃ b, p = .builtin b := by
    cases c <;> simp only [Cell.primitive?, reduceCtorEq] at hp
    case prim o =>
      subst hp
      exact hb _ _ hc
  unfold resolve at hr
  split at hr
  · split at hr
    · next hfield =>
      cases hr
      obtain ⟨c, hcode, hp⟩ := Option.bind_eq_some_iff.mp hfield
      exact hprim hcode hp
    · cases hr
  · split at hr
    · next hp =>
      cases hr
      exact hprim hc hp
    · cases hr

theorem word_of_resolve {st : State} {a : Word} {c : Cell} {t : Trap} (h : resolve st a c = .error t) :
    t.word = "" := by
  unfold resolve at h
  split at h <;> split at h <;> cases h <;> rfl

/-- A step runs built-in words only, if there are no others in memory. -/
theorem builtin_of_runs (hb : m.BuiltinOnly) (h : Runs m w p m₁) : ∃ b, p = .builtin b := by
  induction h with
  | first hc hr => exact builtin_of_resolve hb hc hr
  | next hr hp hq _ =>
    have hmem := (Prod.mk.inj (contents_of_perform hp)).1
    rw [hmem, state_of_runs hr] at hq
    exact hb _ _ hq

theorem anonymous_codeField (code : Word) : Anonymous (codeField code) :=
  (State.anonymous_fetch code).bind fun _ => anonymous_orRaiseAt _ _ _

/-- A built-in word leaves the name to the machine. -/
theorem anonymous_primitive {b : Builtin} : Anonymous ((Primitive.builtin b).perform w) :=
  fun m f m' h => b.anonymous_perform w m f m' (perform_error h)

/-- The name of a word is put to a failure that has none. -/
theorem inWord_of_anonymous (hf : f.IsAnonymous) (name : String) :
    ∃ t, f.inWord name = .trap t ∧ t.word = name := by
  obtain ⟨t, rfl, ht⟩ := hf
  refine ⟨t.inWord name, rfl, ?_⟩
  rw [Trap.inWord, if_pos ht]

/-- A failure has the name of the innermost primitive, by induction on how much there is left to hand over
for. -/
theorem named_of_invoke (hb : m₀.BuiltinOnly) (hr : Runs m₀ w p m) (h : invoke w p m = .error f m') :
    ∃ b t, Innermost m₀ (.builtin b) ∧ f = .trap t ∧ t.word = b.name := by
  induction hn : m.patience using Nat.strongRecOn generalizing w p m with
  | ind n ih =>
    obtain ⟨b, rfl⟩ := builtin_of_runs hb hr
    rw [invoke_eq, Action.inWord_apply, Action.bind_apply] at h
    cases hp : (Primitive.builtin b).perform w m with
    | error f₁ m₁ =>
      simp only [hp] at h
      cases h
      obtain ⟨t, ht, hname⟩ := inWord_of_anonymous (anonymous_primitive _ _ _ hp) b.name
      exact ⟨b, t, ⟨w, m, hr, keeps_of_error hp⟩, ht, hname⟩
    | ok next m₁ =>
      simp only [hp] at h
      cases next with
      | none => cases h
      | some code =>
        have hless := patience_of_perform hp
        rcases codeField_apply code m₁.state with ⟨q, hq, -⟩ | ⟨e, he⟩
        · -- the next primitive has named the failure
          have hnote := patience_note m₁ ("-> " ++ q.name ++ " ")
          have hnext := hr.next hp hq
          obtain ⟨b', rfl⟩ := builtin_of_runs hb hnext
          have hinner := inWord_invoke (p := .builtin b') (w := code)
            (m := { m₁ with console := m₁.console.note ("-> " ++ b'.name ++ " ") }) b'.name_ne_empty b.name
          have hinvoke : invoke code (.builtin b')
              { m₁ with console := m₁.console.note ("-> " ++ b'.name ++ " ") } = .error f m' := by
            rw [← hinner, Action.inWord_apply]
            simp only [dispatch_of_field hq] at h
            exact h
          exact ih _ (by omega) hnext hinvoke rfl
        · -- the word hands over to a cell that holds no primitive
          simp only [dispatch_of_error he] at h
          cases h
          obtain ⟨t, ht, hname⟩ := inWord_of_anonymous (anonymous_codeField _ _ _ _ he) b.name
          refine ⟨b, t, ⟨w, m, hr, fun code' m₂ hok q hq => ?_⟩, ht, hname⟩
          cases hp.symm.trans hok
          cases he.symm.trans (codeField_of_getElem? hq)

/-- What the trap of a step has of the machine, and which name it ends up with. -/
theorem bind_trap (t : Trap) (before after : State) (name : String) :
    (bind (.trap t) before after name).context =
        some ⟨before.ip, before.nip, after.stack, after.returns⟩ ∧
      (bind (.trap t) before after name).word = if t.word = "" then name else t.word := by
  refine ⟨rfl, ?_⟩
  simp only [bind, Trap.inWord]
  split <;> rfl

/-- The trap of a failed step has the pointers before the step and both stacks after it. Its name is empty
if the step has not come to a primitive, and otherwise the name of the one primitive that is innermost. -/
theorem trap_names_the_innermost_primitive {t : Trap} (hb : m.BuiltinOnly) (h : step m = .error t m') :
    t.context = some ⟨m.state.ip, m.state.nip, m'.state.stack, m'.state.returns⟩ ∧
      (m.Unresolved → t.word = "") ∧
      (¬m.Unresolved → ∃ b, (∀ p, Innermost m p ↔ p = .builtin b) ∧ t.word = b.name) := by
  cases hc : m.state.memory[m.state.ip]? with
  | none =>
    have hu : m.Unresolved := fun c hc' => nomatch hc.symm.trans hc'
    simp only [step, hc] at h
    cases h
    exact ⟨rfl, fun _ => rfl, fun hn => absurd hu hn⟩
  | some c =>
    cases hr : resolve m.state m.state.ip c with
    | error t' =>
      have hu : m.Unresolved := by
        intro c' hc'
        cases hc.symm.trans hc'
        exact ⟨t', hr⟩
      simp only [step, hc, hr] at h
      cases h
      obtain ⟨hcontext, hword⟩ := bind_trap t' m.state m.state ""
      refine ⟨hcontext, fun _ => ?_, fun hn => absurd hu hn⟩
      rw [hword, word_of_resolve hr, if_pos rfl]
    | ok wp =>
      obtain ⟨w, p⟩ := wp
      have hrun : Runs m w p (m.begin p) := .first hc hr
      rw [step_eq_conclude hc hr] at h
      cases hi : invoke w p (m.begin p) with
      | ok u m₁ =>
        rw [hi] at h
        cases h
      | error f m₁ =>
        rw [hi] at h
        cases h
        obtain ⟨b, t', hinner, rfl, hname⟩ := named_of_invoke hb hrun hi
        obtain ⟨hcontext, hword⟩ := bind_trap t' m.state m₁.state p.name
        refine ⟨hcontext, fun hu => absurd hrun (not_runs_of_unresolved hu), fun _ => ⟨b, ?_, ?_⟩⟩
        · intro q
          refine ⟨fun hq => hq.unique hinner, ?_⟩
          rintro rfl
          exact hinner
        · have hne : t'.word ≠ "" := hname ▸ b.name_ne_empty
          rw [hword, if_neg hne, hname]

end Machine

/-- A property of all cells of a memory and of all cells that are loaded. -/
theorem Memory.forall_load {P : Cell → Prop} {M : Memory} {a : Word} {cells : List Cell}
    (hM : ∀ (b : Word) c, M[b]? = some c → P c) (hcells : ∀ c ∈ cells, P c) (b : Word) (c : Cell)
    (h : (M.load a cells)[b]? = some c) : P c := by
  induction cells generalizing M a with
  | nil => exact hM b c h
  | cons d rest ih =>
    refine ih (fun b' c' hc' => ?_) (fun c' hc' => hcells c' (List.mem_cons_of_mem d hc')) h
    rw [getElem?_insert_ite] at hc'
    split at hc'
    · cases hc'
      exact hcells d List.mem_cons_self
    · exact hM b' c' hc'

namespace NestedTrap

open Machine

/-- A machine about to execute INTERPRET, which reads another name for DROP and runs it when no cell is
left. -/
def machine : Machine where
  state := {
    ip := 10
    nip := 7
    memory := Memory.load ∅ 10 [.builtin .execute, .builtin .interpret, .builtin .drop]
    dictionary := .ofList [{ name := "DISCARD", code := 12 }]
    returns := [5]
    stack := [.addr 11] }
  console := { input := some { rest := "DISCARD 1".toList } }

theorem builtinOnly_machine : machine.BuiltinOnly := by
  intro a p h
  have hprim : ∀ q, (Cell.prim (some p)) = .prim (some q) → ∃ b, q = .builtin b := by
    refine Memory.forall_load (P := fun c => ∀ q, c = .prim (some q) → ∃ b, q = .builtin b) ?_ ?_ a _ h
    · intro b c hc
      cases hc
    · intro c hc q hq
      simp only [List.mem_cons, List.not_mem_nil, or_false] at hc
      rcases hc with rfl | rfl | rfl <;> cases hq <;> exact ⟨_, rfl⟩
  exact hprim p rfl

theorem runs_machine : ∃ m₁, Runs machine 12 (.builtin .drop) m₁ ∧ m₁.state.stack = [] ∧
    m₁.state.returns = [5] := by
  have hfirst : Runs machine 10 (.builtin .execute) (machine.begin (.builtin .execute)) :=
    .first (c := .builtin .execute) rfl rfl
  have hsecond : Runs machine 11 (.builtin .interpret) _ := hfirst.next rfl rfl
  exact ⟨_, hsecond.next rfl rfl, rfl, rfl⟩

/-- A DROP without a cell. -/
theorem drop_of_nil {m : Machine} (h : m.state.stack = []) :
    (Primitive.builtin .drop).perform 12 m = .error (.ofKind .stackUnderflow) m := by
  obtain ⟨⟨ip, nip, memory, dictionary, returns, stack⟩, console⟩ := m
  obtain rfl : stack = [] := h
  rfl

end NestedTrap

namespace Machine

open NestedTrap

/-- EXECUTE has run INTERPRET, and INTERPRET the word that the input names; that word is the one which the
trap names. -/
theorem nested_trap_names_drop : ∃ t m', step machine = .error t m' ∧
    t.context = some ⟨10, 7, [], [5]⟩ ∧ t.word = "DROP" := by
  obtain ⟨m₁, hrun, hstack, hreturns⟩ := runs_machine
  have hdrop := drop_of_nil hstack
  have hstep := step_of_runs_raises hrun hdrop rfl
  have hinner : Innermost machine (.builtin .drop) := ⟨_, _, hrun, keeps_of_error hdrop⟩
  obtain ⟨hcontext, -, hname⟩ := trap_names_the_innermost_primitive builtinOnly_machine hstep
  obtain ⟨b, hunique, hword⟩ := hname fun hu => not_runs_of_unresolved hu hrun
  cases (hunique _).mp hinner
  refine ⟨_, _, hstep, hcontext.trans ?_, hword⟩
  simp only [hstack, hreturns]
  rfl

end Machine

end ForthMachine
