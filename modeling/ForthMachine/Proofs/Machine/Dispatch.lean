import ForthMachine.Proofs.Interpreter.Token
import ForthMachine.Proofs.Machine.Trail

namespace ForthMachine

namespace Source

/-- A word that is ended by a blank leaves less than there was. -/
theorem length_of_scan_delimited {s : Scan} {cs word rest : List Char}
    (h : scan s cs = .delimited word rest) : rest.length < cs.length := by
  fun_induction scan s cs
  case case1 | case2 | case3 => cases h
  case case4 ih | case5 ih | case6 ih | case7 ih | case8 ih | case10 ih =>
    have hlt := ih h
    exact Nat.lt_succ_of_lt hlt
  case case9 =>
    cases h
    exact Nat.lt_succ_self _

/-- A word takes at least one character. -/
theorem length_of_nextWord {s s' : Source} {word : String} (h : s.nextWord = (.ok word, s')) :
    s'.rest.length < s.rest.length := by
  unfold nextWord at h
  cases hs : scan .outside s.rest with
  | delimited w rest =>
    rw [hs] at h
    cases h
    exact length_of_scan_delimited hs
  | final w =>
    have hne : s.rest ≠ [] := by
      intro he
      rw [he] at hs
      cases hs
    have hpos : 0 < s.rest.length := List.length_pos_iff.mpr hne
    rw [hs] at h
    cases he : s.ending with
    | endOfInput =>
      simp only [he] at h
      cases h
      exact hpos
    | failure message =>
      simp only [he] at h
      cases h
  | absent =>
    rw [hs] at h
    cases h

end Source

namespace Machine

variable {m m' m₁ m₂ : Machine} {w code : Word} {p q : Primitive} {b : Builtin} {n k : Nat}

/-- Reading a word uses up a character at least. -/
theorem remaining_of_nextWord {name : String} (h : Terminal.nextWord m = .ok name m') :
    m'.console.remaining < m.console.remaining := by
  rw [Terminal.nextWord, onConsole] at h
  obtain ⟨c, hread, rfl⟩ := Action.ok_of_zoom h
  simp only [Terminal.read, Action.bind_apply, Action.get_apply] at hread
  cases hi : m.console.input with
  | none =>
    rw [hi] at hread
    cases hread
  | some source =>
    simp only [hi] at hread
    cases hs : source.nextWord with
    | mk result rest =>
      rw [hs] at hread
      cases result with
      | error ending => cases hread
      | ok word =>
        cases hread
        have hlt := Source.length_of_nextWord hs
        simpa only [Console.remaining, hi] using hlt

/-- Handing over costs a cell or a character. -/
theorem patience_of_handOver (h : b.perform w m = .ok (some code) m') : m'.patience < m.patience := by
  unfold patience
  rcases Builtin.state_of_handOver h with ⟨rfl, c, s, hs, hst⟩ | ⟨rfl, hst⟩
  · -- EXECUTE has taken a cell and leaves the console alone
    obtain ⟨a, ha⟩ := Action.ok_of_map h
    obtain ⟨st, -, hm'⟩ := Action.ok_of_zoom ha
    have hconsole : m'.console = m.console := by rw [hm']
    have hstack : m'.state.stack.length + 1 = m.state.stack.length := by
      rw [hst, hs, List.length_cons]
    rw [hconsole]
    omega
  · -- INTERPRET has read a word and leaves the state alone
    obtain ⟨name, m₁, hword, hrest⟩ := Action.ok_of_bind h
    obtain ⟨st, -, hm'⟩ := Action.ok_of_zoom hrest
    have hconsole : m'.console = m₁.console := by rw [hm']
    have hlt := remaining_of_nextWord hword
    rw [hconsole, hst]
    omega

/-- Handing over costs a cell or a character, whichever word does it. -/
theorem patience_of_perform (h : p.perform w m = .ok (some code) m') : m'.patience < m.patience := by
  obtain ⟨b, rfl⟩ := builtin_of_handOver h
  exact patience_of_handOver (perform_handOver h)

theorem patience_note (m : Machine) (piece : String) :
    ({ m with console := m.console.note piece } : Machine).patience = m.patience := by
  simp [patience, Console.remaining]

/-- Each primitive that a step runs stands at the end of a trail. -/
theorem Runs.trail (h : Runs m w p m₁) : ∃ earlier, Trail m earlier w p m₁ := by
  induction h with
  | first hc hr => exact ⟨[], .first hc hr⟩
  | next _ hp hq ih =>
    obtain ⟨b, rfl⟩ := builtin_of_handOver hp
    obtain ⟨earlier, ht⟩ := ih
    exact ⟨b :: earlier, ht.next hp hq⟩

/-- Up to the word that ends it, a step has taken cells from the stack and nothing else. -/
theorem state_of_runs (h : Runs m w p m₁) :
    m₁.state = { m.state with nip := m.state.ip + 1, stack := m₁.state.stack } := by
  obtain ⟨earlier, ht⟩ := h.trail
  obtain ⟨-, hst⟩ := ht.state
  rw [hst]
  rfl

/-- A step runs one word only, if the first one does not hand over. -/
theorem runs_single {c : Cell} {w₀ : Word} (hc : m.state.memory[m.state.ip]? = some c)
    (hr : resolve m.state m.state.ip c = .ok (w₀, .builtin b)) (hb : b ≠ .execute ∧ b ≠ .interpret)
    (h : Runs m w p m₁) : p = .builtin b ∧ m₁ = m.begin (.builtin b) := by
  induction h with
  | first hc' hr' =>
    cases hc.symm.trans hc'
    cases hr.symm.trans hr'
    exact ⟨rfl, rfl⟩
  | next _ hp _ ih =>
    obtain ⟨rfl, rfl⟩ := ih
    rcases Builtin.state_of_handOver (perform_handOver hp) with ⟨he, -⟩ | ⟨hi, -⟩
    · exact absurd he hb.1
    · exact absurd hi hb.2

/-- Two bounds that both suffice make no difference. -/
theorem handOver_eq_handOver (hn : m.patience < n) (hk : m.patience < k) :
    handOver n code m = handOver k code m := by
  -- on the first bound: what a hand-over leaves of the patience is below what it leaves of either bound
  induction n generalizing k code m with
  | zero => exact absurd hn (Nat.not_lt_zero _)
  | succ n ih =>
    obtain ⟨k, rfl⟩ : ∃ j, k = j + 1 := ⟨k - 1, by omega⟩
    simp only [handOver, Action.bind_apply, onState_apply]
    rcases codeField_apply code m.state with ⟨q, -, hf⟩ | ⟨e, hf⟩
    · simp only [hf, note_apply, Action.inWord_apply, Action.bind_apply]
      have hnote := patience_note m ("-> " ++ q.name ++ " ")
      cases hq : q.perform code { m with console := m.console.note ("-> " ++ q.name ++ " ") } with
      | error f m₁ => rfl
      | ok next m₁ =>
        cases next with
        | none => rfl
        | some next =>
          have hless := patience_of_perform hq
          have heq : handOver n next m₁ = handOver k next m₁ := ih (by omega) (by omega)
          simp only [heq]
    · simp only [hf]

def dispatch (code : Word) : Action Machine Unit := do
  let p ← onState (codeField code)
  note ("-> " ++ p.name ++ " ")
  invoke code p

/-- With patience left, handing over does not depend on the bound. -/
theorem handOver_eq_dispatch (hn : m.patience < n) : handOver n code m = dispatch code m := by
  obtain ⟨n, rfl⟩ : ∃ j, n = j + 1 := ⟨n - 1, by omega⟩
  simp only [handOver, dispatch, Action.bind_apply, onState_apply]
  rcases codeField_apply code m.state with ⟨q, -, hf⟩ | ⟨e, hf⟩
  · simp only [hf, note_apply, invoke, Action.inWord_apply, Action.bind_apply]
    have hnote := patience_note m ("-> " ++ q.name ++ " ")
    cases hq : q.perform code { m with console := m.console.note ("-> " ++ q.name ++ " ") } with
    | error f m₁ => rfl
    | ok next m₁ =>
      cases next with
      | none => rfl
      | some next =>
        have hless := patience_of_perform hq
        have heq : handOver n next m₁ = handOver (m₁.patience + 1) next m₁ :=
          handOver_eq_handOver (by omega) (by omega)
        simp only [heq, Action.bind_apply, Action.get_apply]
  · simp only [hf]

/-- A primitive runs, and then the words to which it hands over, each in the place of the one before. -/
theorem invoke_eq (w : Word) (p : Primitive) (m : Machine) :
    invoke w p m = Action.inWord p.name (do
      match ← p.perform w with
      | none => pure ()
      | some next => dispatch next) m := by
  simp only [invoke, Action.inWord_apply, Action.bind_apply]
  cases p.perform w m with
  | error f m₁ => rfl
  | ok next m₁ =>
    cases next with
    | none => rfl
    | some next =>
      have heq : handOver (m₁.patience + 1) next m₁ = dispatch next m₁ :=
        handOver_eq_dispatch (Nat.lt_succ_self _)
      simp only [Action.bind_apply, Action.get_apply, heq]

theorem codeField_of_getElem? {st : State} (hq : st.memory[code]? = some (.prim (some q))) :
    codeField code st = .ok q st := by
  simp [codeField, State.fetch_of_getElem? hq, Cell.primitive?]

theorem dispatch_of_field (hq : m.state.memory[code]? = some (.prim (some q))) :
    dispatch code m = invoke code q { m with console := m.console.note ("-> " ++ q.name ++ " ") } := by
  simp only [dispatch, Action.bind_apply, onState_apply, codeField_of_getElem? hq, note_apply]

theorem dispatch_of_error {f : Failure} (hf : codeField code m.state = .error f m.state) :
    dispatch code m = .error f m := by
  simp only [dispatch, Action.bind_apply, onState_apply, hf]

/-- A failure that has the name of a primitive keeps it. -/
theorem inWord_inWord (f : Failure) {name : String} (hn : name ≠ "") (outer : String) :
    (f.inWord name).inWord outer = f.inWord name := by
  cases f with
  | host message => rfl
  | trap t =>
    have hnamed : (t.inWord name).word ≠ "" := by
      by_cases hw : t.word = "" <;> simp [Trap.inWord, hw, hn]
    change Failure.trap ((t.inWord name).inWord outer) = .trap (t.inWord name)
    rw [Trap.inWord, if_neg hnamed]

/-- A failure of an inner word has a name already. -/
theorem inWord_invoke (hn : p.name ≠ "") (outer : String) :
    Action.inWord outer (invoke w p) m = invoke w p m := by
  rw [Action.inWord_apply, invoke_eq, Action.inWord_apply]
  generalize (do match ← p.perform w with | none => pure () | some next => dispatch next :
    Action Machine Unit) m = r
  cases r with
  | ok u m₁ => rfl
  | error f m₁ =>
    change EStateM.Result.error ((f.inWord p.name).inWord outer) m₁ = .error (f.inWord p.name) m₁
    rw [inWord_inWord f hn]

def conclude (m : Machine) (name : String) : EStateM.Result Failure Machine Unit →
    EStateM.Result Trap Machine Unit
  | .ok () m' => .ok () m'.noteStack
  | .error f m' => .error (bind f m.state m'.state name) { m' with console := m'.console.note "\n" }

/-- A step runs the primitive of its cell, and then the trap is made if it has failed. -/
theorem step_eq_conclude {c : Cell} (hc : m.state.memory[m.state.ip]? = some c)
    (hr : resolve m.state m.state.ip c = .ok (w, p)) :
    step m = conclude m p.name (invoke w p (m.begin p)) := by
  rw [step_eq_of_resolve hc hr]
  cases invoke w p (m.begin p) <;> rfl

/-- The end of a step is decided by any of the primitives that it runs: those in front of it have only
handed over. -/
theorem invoke_of_runs (h : Runs m w p m₁) (hn : p.name ≠ "") :
    ∃ c w₀ p₀, m.state.memory[m.state.ip]? = some c ∧ resolve m.state m.state.ip c = .ok (w₀, p₀) ∧
      invoke w₀ p₀ (m.begin p₀) = invoke w p m₁ := by
  induction h with
  | first hc hr => exact ⟨_, _, _, hc, hr, rfl⟩
  | @next w code p q m₁ m₂ _ hp hq ih =>
    have hname : p.name ≠ "" := by
      obtain ⟨b, rfl⟩ := builtin_of_handOver hp
      exact b.name_ne_empty
    obtain ⟨c, w₀, p₀, hc, hr, hinvoke⟩ := ih hname
    refine ⟨c, w₀, p₀, hc, hr, ?_⟩
    rw [hinvoke, invoke_eq]
    -- the word in front adds its name to a failure, but the failure has a name already
    have hinner := inWord_invoke (w := code) (m := { m₂ with
      console := m₂.console.note ("-> " ++ q.name ++ " ") }) hn p.name
    rw [Action.inWord_apply] at hinner ⊢
    simp only [Action.bind_apply, hp, dispatch_of_field hq]
    exact hinner

theorem step_of_runs {c : Cell} {w₀ : Word} {p₀ : Primitive} (hc : m.state.memory[m.state.ip]? = some c)
    (hr : resolve m.state m.state.ip c = .ok (w₀, p₀)) (h : Runs m w p m₁) (hn : p.name ≠ "") :
    step m = conclude m p₀.name (invoke w p m₁) := by
  obtain ⟨c', w', p', hc', hr', hinvoke⟩ := invoke_of_runs h hn
  cases hc.symm.trans hc'
  cases hr.symm.trans hr'
  rw [step_eq_conclude hc hr, hinvoke]

/-- A step that runs a word which succeeds and hands over to no other word. -/
theorem step_of_runs_performs (hr : Runs m w (.builtin b) m₁)
    (hp : (Primitive.builtin b).perform w m₁ = .ok none m') : step m = .ok () m'.noteStack := by
  obtain ⟨c, w₀, p₀, hc, hres, hinvoke⟩ := invoke_of_runs hr b.name_ne_empty
  rw [step_eq_conclude hc hres, hinvoke, invoke_of_perform hp]
  rfl

/-- A step that runs a word which raises a trap: the trap gets the name of that word, the pointers before
the step and the stacks after it. -/
theorem step_of_runs_raises {t : Trap} (hr : Runs m w (.builtin b) m₁)
    (hp : (Primitive.builtin b).perform w m₁ = .error (.trap t) m') (ht : t.word = "") :
    step m = .error
      { t with
        word := b.name
        context := some ⟨m.state.ip, m.state.nip, m'.state.stack, m'.state.returns⟩ }
      { m' with console := m'.console.note "\n" } := by
  obtain ⟨c, w₀, p₀, hc, hres, hinvoke⟩ := invoke_of_runs hr b.name_ne_empty
  rw [step_eq_conclude hc hres, hinvoke, invoke_of_perform_error hp]
  simp only [conclude, bind, Failure.inWord, Trap.inWord, ht, ↓reduceIte, Primitive.name,
    b.name_ne_empty]

/-- A step that succeeds ends with a primitive that succeeds and does not hand over. -/
theorem ends_of_invoke {m₀ : Machine} (hr : Runs m₀ w p m) (h : invoke w p m = .ok () m') :
    ∃ w' q m₁, Runs m₀ w' q m₁ ∧ q.perform w' m₁ = .ok none m' := by
  induction hp : m.patience using Nat.strongRecOn generalizing w p m with
  | ind n ih =>
    rw [invoke_eq, Action.inWord_apply, Action.bind_apply] at h
    cases hm : p.perform w m with
    | error f m₁ =>
      simp only [hm] at h
      cases h
    | ok next m₁ =>
      simp only [hm] at h
      cases next with
      | none =>
        cases h
        exact ⟨w, p, m, hr, hm⟩
      | some code =>
        have hless := patience_of_perform hm
        rcases codeField_apply code m₁.state with ⟨q, hq, -⟩ | ⟨e, hf⟩
        · -- the next primitive finds a machine with less patience
          have hnote := patience_note m₁ ("-> " ++ q.name ++ " ")
          have hinvoke : invoke code q { m₁ with console := m₁.console.note ("-> " ++ q.name ++ " ") } =
              .ok () m' := by
            simp only [dispatch_of_field hq] at h
            split at h
            · rename_i heq
              cases h
              exact heq
            · cases h
          exact ih _ (by omega) (hr.next hm hq) hinvoke rfl
        · simp only [dispatch_of_error hf] at h
          cases h

end Machine

section Landing

open State

variable {α β : Type} {done : α → Prop}

/-- Where the action ends with a result of the given sort, the next cell is the one after the instruction
pointer. -/
def Lands (done : α → Prop) (x : Action State α) : Prop :=
  ∀ st a st', x st = .ok a st' → done a → st'.nip = st'.ip + 1

/-- Only the last action decides where the machine goes on. -/
theorem lands_bind {x : Action State β} {g : β → Action State α} (hg : ∀ b, Lands done (g b)) :
    Lands done (x >>= g) := by
  intro st a st' h
  obtain ⟨b, st₁, -, hrest⟩ := Action.ok_of_bind h
  exact hg b st₁ a st' hrest

theorem lands_jump (a : Word) (done : Unit → Prop) : Lands done (jump a) := by
  intro st u st' h _
  cases h
  rfl

theorem lands_advance (done : Unit → Prop) : Lands done advance := by
  intro st u st' h _
  cases h
  rfl

theorem lands_advance_pure (a : α) : Lands done (do advance; pure a) := by
  intro st b st' h _
  cases h
  rfl

theorem lands_branch (done : Unit → Prop) : Lands done Control.branch :=
  lands_bind fun _ => lands_bind fun _ => lands_bind fun _ => lands_jump _ done

theorem lands_zeroBranch (done : Unit → Prop) : Lands done Control.zeroBranch := by
  apply lands_bind
  intro flag
  split
  · exact lands_branch done
  · exact lands_bind fun _ => lands_jump _ done

/-- MOVE ends by advancing. -/
theorem lands_move (done : Unit → Prop) : Lands done Storage.move := by
  apply lands_bind
  rintro ⟨target, source, count⟩
  apply lands_bind
  intro st
  apply lands_bind
  intro u
  split
  · exact lands_advance done
  · intro st a st' h
    cases h

/-- INTERPRET goes on to the next cell by itself, once it has dealt with the word. -/
theorem lands_meaning (name : String) : Lands (· = none) (Compiler.meaning name) := by
  apply lands_bind
  intro st
  split
  · split
    · intro st a st' h hnone
      cases h
      cases hnone
    · exact lands_bind fun _ => lands_advance_pure none
  · split
    · intro st a st' h
      cases h
    · split
      · exact lands_bind fun _ => lands_advance_pure none
      · exact lands_bind fun _ => lands_advance_pure none

end Landing

namespace Machine

variable {m m' : Machine} {w : Word} {p : Primitive} {b : Builtin}

theorem nip_of_stateWord {x : Action State Unit} (hx : Lands (fun _ => True) x)
    (h : Builtin.perform.onState x m = .ok none m') : m'.state.nip = m'.state.ip + 1 := by
  obtain ⟨u, m₁, hu, hrest⟩ := Action.ok_of_bind h
  cases hrest
  exact hx _ _ _ (ok_of_onState hu) trivial

/-- A word with next sets both pointers. -/
theorem nip_of_withNext (hc : b.contract = .withNext) (h : b.perform w m = .ok none m') :
    m'.state.nip = m'.state.ip + 1 := by
  cases b <;> first | contradiction | skip
  case move => exact nip_of_stateWord (lands_move _) h
  case lit =>
    exact nip_of_stateWord (lands_bind fun _ => lands_bind fun _ => lands_bind fun _ => lands_jump _ _) h
  case branch => exact nip_of_stateWord (lands_branch _) h
  case zeroBranch => exact nip_of_stateWord (lands_zeroBranch _) h
  case docol => exact nip_of_stateWord (lands_bind fun _ => lands_bind fun _ => lands_jump _ _) h
  case exit => exact nip_of_stateWord (lands_bind fun _ => lands_jump _ _) h
  case execute =>
    simp only [Builtin.perform, Action.map_apply] at h
    split at h <;> cases h
  case interpret =>
    obtain ⟨name, m₁, -, hrest⟩ := Action.ok_of_bind h
    exact lands_meaning name _ _ _ (ok_of_onState hrest) rfl

/-- Whichever way a primitive ends the step, the next cell comes after the instruction pointer. -/
theorem nip_of_perform (h : p.perform w m = .ok none m') : m'.state.nip = m'.state.ip + 1 := by
  cases p with
  | host name contract => cases contract <;> cases h
  | builtin b =>
    rw [Primitive.perform] at h
    cases hc : b.contract with
    | withNext =>
      rw [hc] at h
      exact nip_of_withNext hc h
    | ordinary =>
      rw [hc] at h
      obtain ⟨next, m₁, -, hrest⟩ := Action.ok_of_bind h
      cases hrest
      rfl

/-- A step that succeeds leaves the next cell right after the instruction pointer. -/
theorem nip_of_step (h : step m = .ok () m') : m'.state.nip = m'.state.ip + 1 := by
  cases hc : m.state.memory[m.state.ip]? with
  | none =>
    simp only [step, hc] at h
    cases h
  | some c =>
    cases hr : resolve m.state m.state.ip c with
    | error t =>
      simp only [step, hc, hr] at h
      cases h
    | ok wp =>
      obtain ⟨w, p⟩ := wp
      rw [step_eq_conclude hc hr] at h
      cases hi : invoke w p (m.begin p) with
      | error f m₁ =>
        rw [hi] at h
        cases h
      | ok u m₁ =>
        rw [hi] at h
        cases h
        obtain ⟨w', q, m₂, -, hq⟩ := ends_of_invoke (.first hc hr) hi
        have hnip : m₁.state.nip = m₁.state.ip + 1 := nip_of_perform hq
        exact hnip

/-- So it is after any number of steps. -/
theorem Reaches.nip (h : Reaches m m') (hn : m.state.nip = m.state.ip + 1) :
    m'.state.nip = m'.state.ip + 1 := by
  induction h with
  | refl m => exact hn
  | head hs _ ih => exact ih (nip_of_step hs)

end Machine

end ForthMachine
