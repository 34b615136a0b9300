import ForthMachine.Image
import ForthMachine.Proofs.Machine.Thread
import ForthMachine.Proofs.Source.Words
import ForthMachine.Proofs.Words.Operand

namespace ForthMachine

theorem Builtin.name_ne_empty (b : Builtin) : b.name ≠ "" := by
  cases b <;> decide

namespace Machine

open State

/-- Memory holds the outer interpreter at `quit`. -/
structure Loop (quit : Word) (M : Memory) : Prop where
  cells : ∃ i b, M.Holds quit [.ref i, .ref b, .int (-2)] ∧
    M[i]? = some (.builtin .interpret) ∧ M[b]? = some (.builtin .branch)

/-- A machine in a given state in which the given words of the source are left to read. -/
def Awaits (st : State) (ws : List String) (output : Option Sink) (m : Machine) : Prop :=
  ∃ cs, Source.words cs = ws ∧ Shows st (some { rest := cs }) output m

section Reading

variable {M M' : Memory} {D D' : Dictionary} {quit : Word} {R R' : Stack Word} {S S' : Stack Cell}
  {output : Option Sink} {w : String} {ws : List String} {st : State}

/-- Steps that lead from one state to another whatever the input is. -/
theorem leads_awaits {st st' : State} {output' : Option Sink}
    (h : ∀ input, Leads (Shows st input output) (Shows st' input output')) :
    Leads (Awaits st ws output) (Awaits st' ws output') := by
  rintro m ⟨cs, hcs, hm⟩
  obtain ⟨m', hr, hq⟩ := h _ m hm
  exact ⟨m', hr, cs, hcs, hq⟩

theorem fails_awaits {st : State} {kind : Trap.Kind} {name : String} {Q : Machine → Prop}
    (h : ∀ input, Fails (Shows st input output) kind name Q) :
    Fails (Awaits st ws output) kind name Q := by
  rintro m ⟨cs, hcs, hm⟩
  exact h _ m hm

/-- The next word that is read is the first of those that are left. -/
theorem nextWord_of_awaits {m : Machine} (h : Awaits st (w :: ws) output m) :
    ∃ m', Terminal.nextWord m = .ok w m' ∧ Awaits st ws output m' := by
  obtain ⟨cs, hcs, hm⟩ := h
  obtain ⟨rest, hnext, hrest⟩ := Source.nextWord_of_words_cons hcs
  refine ⟨{ m with console := { m.console with input := some { rest } } }, ?_, rest, hrest,
    hm.state, rfl, fun o ho => ?_⟩
  · simp [Terminal.nextWord, Terminal.read, hm.input, hnext]
  · obtain ⟨hapart, hout⟩ := hm.output o ho
    exact ⟨hapart, hout⟩

/-- When no word is left, reading one comes to the end of the input. -/
theorem nextWord_of_awaits_nil {m : Machine} (h : Awaits st [] output m) :
    ∃ m', Terminal.nextWord m = .error (.ofKind .endOfInput) m' ∧ Awaits st [] output m' := by
  obtain ⟨cs, hcs, hm⟩ := h
  have hnext := Source.nextWord_of_words_nil hcs
  refine ⟨{ m with console := { m.console with input := some { rest := [] } } }, ?_, [], rfl,
    hm.state, rfl, fun o ho => ?_⟩
  · simp [Terminal.nextWord, Terminal.read, hm.input, hnext, Terminal.failureOf]
  · obtain ⟨hapart, hout⟩ := hm.output o ho
    exact ⟨hapart, hout⟩

theorem Awaits.note {m : Machine} (h : Awaits st ws output m) (piece : String) :
    Awaits st ws output { m with console := m.console.note piece } := by
  obtain ⟨cs, hcs, hm⟩ := h
  exact ⟨cs, hcs, hm.note piece⟩

theorem Awaits.noteStack {m : Machine} (h : Awaits st ws output m) :
    Awaits st ws output m.noteStack := by
  obtain ⟨cs, hcs, hm⟩ := h
  exact ⟨cs, hcs, hm.noteStack⟩

theorem Awaits.begin {m : Machine} (h : Awaits (running M D quit R S) ws output m) (p : Primitive) :
    Awaits (running M D quit R S) ws output (m.begin p) := by
  obtain ⟨cs, hcs, hm⟩ := h
  exact ⟨cs, hcs, hm.begin p⟩

theorem Awaits.withState {m : Machine} (h : Awaits st ws output m) (st' : State) :
    Awaits st' ws output { m with state := st' } := by
  obtain ⟨cs, hcs, hm⟩ := h
  exact ⟨cs, hcs, hm.withState st'⟩

theorem Awaits.state {m : Machine} (h : Awaits st ws output m) : m.state = st := by
  obtain ⟨_, _, hm⟩ := h
  exact hm.state

/-- The step of INTERPRET, by what the word asks for. -/
theorem step_interpret {m : Machine} (hl : Loop quit M)
    (h : Awaits (running M D quit R S) (w :: ws) output m) :
    ∃ i m₁, Awaits (running M D quit R S) ws output m₁ ∧
      (Primitive.builtin .interpret).perform i (m.begin (.builtin .interpret)) =
        onState (Compiler.meaning w) m₁ ∧
      step m = match invoke i (.builtin .interpret) (m.begin (.builtin .interpret)) with
        | .ok () m' => .ok () m'.noteStack
        | .error f m' => .error (bind f m.state m'.state Builtin.interpret.name)
            { m' with console := m'.console.note "\n" } := by
  obtain ⟨i, b, hcells, hi, -⟩ := hl.cells
  obtain ⟨m₁, hword, hm₁⟩ := nextWord_of_awaits (h.begin (.builtin .interpret))
  have hstate := h.state
  refine ⟨i, m₁, hm₁, ?_, ?_⟩
  · change Compiler.interpret (m.begin (.builtin .interpret)) = _
    rw [Compiler.interpret, Action.bind_apply, hword]
  · refine step_eq_of_resolve (c := .ref i) ?_ ?_
    · rw [hstate]
      exact (Memory.holds_cons.mp hcells).1
    · rw [hstate]
      exact resolve_ref hi

/-- Behind INTERPRET the branch leads back to the start of the loop. -/
theorem leads_loop (hl : Loop quit M) :
    Leads (Awaits (running M D (quit.plus 1) R S) ws output)
      (Awaits (running M D quit R S) ws output) := by
  obtain ⟨i, b, hcells, -, hb⟩ := hl.cells
  exact leads_awaits fun input => leads_back hcells hb

theorem isCompiling_of_zero (h : st.memory[Memory.stateAddress]? = some (.int 0)) :
    st.isCompiling = false := by
  rw [isCompiling, h]
  rfl

/-- A visible name is run when it is immediate or when words are interpreted. -/
theorem meaning_of_find? {e : Entry} (hf : st.dictionary.find? w = some e)
    (hr : e.flags.immediate = true ∨ st.isCompiling = false) :
    Compiler.meaning w st = .ok (some e.code) st := by
  have hrun : (e.flags.immediate || !st.isCompiling) = true := by
    rcases hr with h | h <;> simp [h]
  simp only [Compiler.meaning, Action.bind_apply, Action.get_apply, hf, hrun, ↓reduceIte,
    Action.pure_apply]

/-- A word with which INTERPRET deals by itself. -/
theorem leads_meaning (hl : Loop quit M) (hl' : Loop quit M')
    (hm : Compiler.meaning w (running M D quit R S) =
      .ok none (running M' D' (quit.plus 1) R' S')) :
    Leads (Awaits (running M D quit R S) (w :: ws) output)
      (Awaits (running M' D' quit R' S') ws output) := by
  refine Leads.trans ?_ (leads_loop hl')
  intro m h
  obtain ⟨i, m₁, hm₁, hperform, hstep⟩ := step_interpret hl h
  rw [onState_apply, hm₁.state, hm] at hperform
  rw [invoke_of_perform hperform] at hstep
  exact ⟨_, .head hstep (.refl _), (hm₁.withState _).noteStack⟩

/-- A word to which INTERPRET hands over. -/
theorem leads_handOver {st' : State} {ws' : List String} {output' : Option Sink} {code : Word}
    {q : Primitive} (hl : Loop quit M)
    (hm : Compiler.meaning w (running M D quit R S) = .ok (some code) (running M D quit R S))
    (hq : M[code]? = some (.prim (some q)))
    (hp : Performs code q (Awaits (running M D quit R S) ws output) (Awaits st' ws' output')) :
    Leads (Awaits (running M D quit R S) (w :: ws) output) (Awaits st' ws' output') := by
  intro m h
  obtain ⟨i, m₁, hm₁, hperform, hstep⟩ := step_interpret hl h
  rw [onState_apply, hm₁.state, hm] at hperform
  have hfield : (running M D quit R S).memory[code]? = some (.prim (some q)) := hq
  rw [invoke_of_handOver hperform hfield] at hstep
  obtain ⟨m₂, hperform₂, hm₂⟩ := hp _ ((hm₁.withState _).note ("-> " ++ q.name ++ " "))
  rw [hperform₂] at hstep
  exact ⟨_, .head hstep (.refl _), hm₂.noteStack⟩

/-- What a primitive does whatever the input is, it does between two words of the source. -/
theorem performs_awaits {st st' : State} {output' : Option Sink} {code : Word} {p : Primitive}
    (h : ∀ input, Performs code p (Shows st input output) (Shows st' input output')) :
    Performs code p (Awaits st ws output) (Awaits st' ws output') := by
  rintro m ⟨cs, hcs, hm⟩
  obtain ⟨m', hp, hm'⟩ := h _ m hm
  exact ⟨m', hp, cs, hcs, hm'⟩

/-- An ordinary word to which INTERPRET hands over and which works on the state alone. -/
theorem leads_ordinary_handOver {b : Builtin} {x : Action State Unit} {code : Word}
    (hl : Loop quit M) (hl' : Loop quit M')
    (hm : Compiler.meaning w (running M D quit R S) = .ok (some code) (running M D quit R S))
    (hq : M[code]? = some (.builtin b)) (hb : b.perform code = Builtin.perform.onState x)
    (ho : b.contract = .ordinary)
    (hx : x (running M D quit R S) = .ok () (running M' D' quit R' S')) :
    Leads (Awaits (running M D quit R S) (w :: ws) output)
      (Awaits (running M' D' quit R' S') ws output) := by
  have hafter : (running M' D' quit R' S').after b = running M' D' (quit.plus 1) R' S' := by
    unfold State.after
    rw [ho]
    rfl
  refine Leads.trans (leads_handOver hl hm hq ?_) (leads_loop hl')
  rw [← hafter]
  exact performs_awaits fun _ => performs_onState hb hx

/-- An ordinary word to which INTERPRET hands over and which reads the word after it. -/
theorem leads_reading_handOver {b : Builtin} {y : String → Action Machine Unit} {code : Word}
    {name : String} (hl : Loop quit M) (hl' : Loop quit M')
    (hm : Compiler.meaning w (running M D quit R S) = .ok (some code) (running M D quit R S))
    (hq : M[code]? = some (.builtin b))
    (hb : b.perform code = Builtin.perform.finish (Terminal.nextWord >>= y))
    (ho : b.contract = .ordinary)
    (hy : ∀ m : Machine, m.state = running M D quit R S →
      y name m = .ok () { m with state := running M' D' quit R' S' }) :
    Leads (Awaits (running M D quit R S) (w :: name :: ws) output)
      (Awaits (running M' D' quit R' S') ws output) := by
  refine Leads.trans (leads_handOver hl hm hq ?_) (leads_loop hl')
  intro m h
  obtain ⟨m₁, hword, hm₁⟩ := nextWord_of_awaits h
  refine ⟨{ m₁ with state := running M' D' (quit.plus 1) R' S' }, ?_, hm₁.withState _⟩
  simp only [Primitive.perform, ho, hb, Action.bind_apply, Builtin.perform_finish_apply, hword,
    hy m₁ hm₁.state, onState_apply, advance_apply, Action.pure_apply]
  rfl

/-- A definition to which INTERPRET hands over is entered. -/
theorem leads_entered {code : Word} (hl : Loop quit M)
    (hm : Compiler.meaning w (running M D quit R S) = .ok (some code) (running M D quit R S))
    (hq : M[code]? = some (.builtin .docol)) :
    Leads (Awaits (running M D quit R S) (w :: ws) output)
      (Awaits (running M D (code.plus 1) (quit.plus 1 :: R) S) ws output) := by
  refine leads_handOver hl hm hq (performs_awaits fun _ => ?_)
  exact performs_onState (b := .docol) (x := Control.docol code) rfl rfl

/-- At the end of a definition the machine is back in the loop. -/
theorem leads_returned {a : Word} (hl : Loop quit M) (hc : M[a]? = some (.builtin .exit)) :
    Leads (Awaits (running M D a (quit.plus 1 :: R) S) ws output)
      (Awaits (running M D quit R S) ws output) :=
  (leads_awaits fun _ => leads_exit hc).trans (leads_loop hl)

/-- A built-in word to which INTERPRET hands over and which raises a trap: the trap has its name. -/
theorem fails_handOver {st' : State} {ws' : List String} {output' : Option Sink} {code : Word}
    {b : Builtin} {kind : Trap.Kind} (hl : Loop quit M)
    (hm : Compiler.meaning w (running M D quit R S) = .ok (some code) (running M D quit R S))
    (hq : M[code]? = some (.builtin b))
    (hp : Raises code (.builtin b) (Awaits (running M D quit R S) ws output) kind
      (Awaits st' ws' output')) :
    Fails (Awaits (running M D quit R S) (w :: ws) output) kind b.name
      (Awaits st' ws' output') := by
  intro m h
  obtain ⟨i, m₁, hm₁, hperform, hstep⟩ := step_interpret hl h
  rw [onState_apply, hm₁.state, hm] at hperform
  have hfield : (running M D quit R S).memory[code]? = some (.prim (some (.builtin b))) := hq
  rw [invoke_of_handOver hperform hfield] at hstep
  obtain ⟨t, m₂, hperform₂, hword, hkind, hm₂⟩ :=
    hp _ ((hm₁.withState _).note ("-> " ++ (Primitive.builtin b).name ++ " "))
  rw [hperform₂] at hstep
  -- the innermost name stays: it is not empty, so INTERPRET does not put its own in its place
  have hne := b.name_ne_empty
  refine ⟨m, _, _, .refl m, hstep, ?_, ?_, hm₂.note "\n"⟩
  · simp [bind, Failure.inWord, Trap.inWord, hword, hne, Primitive.name, hkind]
  · simp [bind, Failure.inWord, Trap.inWord, hword, hne, Primitive.name]

/-- A word that is neither a visible name nor a number stops the outer interpreter, which is otherwise left
as it was. -/
theorem step_unknown {m : Machine} (hl : Loop quit M) (hf : D.find? w = none)
    (hd : Numeral.decimal? w.toList = none) (h : Awaits (running M D quit R S) (w :: ws) output m) :
    ∃ t m', step m = .error t m' ∧ t.kind = .unresolvable ∧ t.token = w ∧
      m'.state = running M D quit R S := by
  obtain ⟨i, m₁, hm₁, hperform, hstep⟩ := step_interpret hl h
  have hfind : (running M D quit R S).dictionary.find? w = none := hf
  have hmeaning : Compiler.meaning w (running M D quit R S) =
      .error (.trap { kind := .unresolvable, token := w }) (running M D quit R S) := by
    simp only [Compiler.meaning, Action.bind_apply, Action.get_apply, hfind, hd]
    rfl
  rw [onState_apply, hm₁.state, hmeaning] at hperform
  rw [invoke_of_perform_error hperform] at hstep
  exact ⟨_, _, hstep, rfl, rfl, rfl⟩

/-- At the end of the source a run of the outer interpreter is finished. -/
theorem run_of_awaits_nil {m : Machine} (hl : Loop quit M)
    (h : Awaits (running M D quit R S) [] output m) :
    ∃ m', (∀ n, run (n + 1) m = (.finished, m')) ∧ Awaits (running M D quit R S) [] output m' := by
  obtain ⟨i, b, hcells, hi, -⟩ := hl.cells
  obtain ⟨m₁, hword, hm₁⟩ := nextWord_of_awaits_nil (h.begin (.builtin .interpret))
  have hstate := h.state
  have hperform : (Primitive.builtin .interpret).perform i (m.begin (.builtin .interpret)) =
      .error (.ofKind .endOfInput) m₁ := by
    change Compiler.interpret (m.begin (.builtin .interpret)) = _
    rw [Compiler.interpret, Action.bind_apply, hword]
  refine ⟨{ m₁ with console := m₁.console.note "\n" }, fun n => ?_, hm₁.note "\n"⟩
  rw [run, step_eq_of_resolve (c := .ref i) (by rw [hstate]; exact (Memory.holds_cons.mp hcells).1)
    (by rw [hstate]; exact resolve_ref hi), invoke_of_perform_error hperform]
  simp [bind, Failure.inWord, Failure.ofKind, Trap.inWord]

end Reading

section Evaluation

variable (img : Image) (m : Machine) {cs : List Char} {M' : Memory} {D' : Dictionary}
  {R' : Stack Word} {S' : Stack Cell} {output output' : Option Sink}

/-- An evaluation starts in the loop with all words of the source to read. -/
theorem awaits_enter (ho : ∀ o, output = some o → m.console.KeepsTraceApart ∧ m.console.output = o) :
    Awaits (running m.state.memory m.state.dictionary img.quit m.state.returns m.state.stack)
      (Source.words cs) output (img.enter { rest := cs } m) :=
  ⟨cs, rfl, rfl, rfl, ho⟩

/-- More steps do not change an evaluation that has come to its end. -/
theorem evaluate_mono {source : Source} {m' : Machine} {o : Outcome} {n k : Nat}
    (h : img.evaluate n source m = (o, m')) (ho : o ≠ .cancelled) (hk : n ≤ k) :
    img.evaluate k source m = (o, m') := by
  have hout : ((img.enter source m).run n).1 = o := congrArg Prod.fst h
  have hrun : (img.enter source m).run n = (o, ((img.enter source m).run n).2) := Prod.ext hout rfl
  rw [Image.evaluate, run_mono hrun ho hk]
  exact (Prod.ext hout rfl : img.evaluate n source m = (o, _)).symm.trans h

/-- An evaluation that leads to the end of the source is finished there, however many steps more are
allowed. -/
theorem evaluate_of_leads (hl : Loop img.quit M')
    (ho : ∀ o, output = some o → m.console.KeepsTraceApart ∧ m.console.output = o)
    (h : Leads (Awaits (running m.state.memory m.state.dictionary img.quit m.state.returns m.state.stack)
      (Source.words cs) output) (Awaits (running M' D' img.quit R' S') [] output')) :
    ∃ n m', (∀ fuel, n ≤ fuel → img.evaluate fuel { rest := cs } m = (.finished, m')) ∧
      m'.state = running M' D' img.quit R' S' ∧ m'.console.input = m.console.input ∧
      ∀ o, output' = some o → m'.console.KeepsTraceApart ∧ m'.console.output = o := by
  obtain ⟨m₁, hreach, hm₁⟩ := h _ (awaits_enter img m ho)
  obtain ⟨n, hn⟩ := hreach.run
  obtain ⟨m₂, hrun, rest, -, hm₂⟩ := run_of_awaits_nil hl hm₁
  refine ⟨n + 1, { m₂ with console.input := m.console.input }, fun fuel hfuel => ?_, hm₂.state, rfl,
    hm₂.output⟩
  have hfinished : (img.enter { rest := cs } m).run (n + 1) = (.finished, m₂) :=
    (hn 1).trans (hrun 0)
  rw [Image.evaluate, run_mono hfinished (by decide) hfuel]

/-- An evaluation that comes to a step which fails ends there, however many steps more are allowed. -/
theorem evaluate_of_error {m₁ m₂ : Machine} {t : Trap} {source : Source}
    (hreach : Reaches (img.enter source m) m₁) (hstep : step m₁ = .error t m₂) :
    ∃ n, ∀ fuel, n ≤ fuel → img.evaluate fuel source m =
      (if t.kind = .bye ∨ t.kind = .endOfInput then .finished else .trapped t,
        { m₂ with console.input := m.console.input }) := by
  obtain ⟨n, hn⟩ := hreach.run
  refine ⟨n + 1, fun fuel hfuel => ?_⟩
  have hend : (img.enter source m).run (n + 1) =
      (if t.kind = .bye ∨ t.kind = .endOfInput then .finished else .trapped t, m₂) := by
    rw [hn 1, run, hstep]
    by_cases hk : t.kind = .bye ∨ t.kind = .endOfInput <;> simp [hk]
  rw [Image.evaluate, run_mono hend (by split <;> simp) hfuel]

/-- An evaluation that leads to a trap ends with it. -/
theorem evaluate_of_fails {kind : Trap.Kind} {word : String} {Q : Machine → Prop}
    (ho : ∀ o, output = some o → m.console.KeepsTraceApart ∧ m.console.output = o)
    (hk : kind ≠ .bye ∧ kind ≠ .endOfInput)
    (h : Fails (Awaits (running m.state.memory m.state.dictionary img.quit m.state.returns
      m.state.stack) (Source.words cs) output) kind word Q) :
    ∃ n t m', (∀ fuel, n ≤ fuel → img.evaluate fuel { rest := cs } m =
        (.trapped t, { m' with console.input := m.console.input })) ∧
      t.kind = kind ∧ t.word = word ∧ Q m' := by
  obtain ⟨m₁, t, m₂, hreach, hstep, rfl, hword, hq⟩ := h _ (awaits_enter img m ho)
  obtain ⟨n, hn⟩ := evaluate_of_error img m hreach hstep
  rw [if_neg (by simp [hk])] at hn
  exact ⟨n, t, m₂, hn, rfl, hword, hq⟩

end Evaluation

end Machine

end ForthMachine
