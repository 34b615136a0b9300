import ForthMachine.Proofs.Machine.Accord

namespace ForthMachine

namespace Source

/-- What may be left of a source when some of it has been read. -/
structure Left (s s' : Source) : Prop where
  ending : s'.ending = s.ending
  length : s'.rest.length ≤ s.rest.length

theorem Left.refl (s : Source) : s.Left s := ⟨rfl, Nat.le_refl _⟩

theorem Left.trans {s s' s'' : Source} (h : s.Left s') (h' : s'.Left s'') : s.Left s'' :=
  ⟨h'.ending.trans h.ending, Nat.le_trans h'.length h.length⟩

/-- Reading a character takes it from the front of what was left. -/
theorem left_nextChar (s : Source) : s.Left s.nextChar.2 := by
  unfold nextChar
  cases hr : s.rest with
  | nil => exact .refl s
  | cons c rest => exact ⟨rfl, by simp [hr]⟩

/-- Reading a word takes it from the front of what was left. -/
theorem left_nextWord (s : Source) : s.Left s.nextWord.2 := by
  have hall : s.Left { s with rest := [] } := ⟨rfl, Nat.zero_le _⟩
  unfold nextWord
  cases hs : scan .outside s.rest with
  | delimited word rest => exact ⟨rfl, Nat.le_of_lt (length_of_scan_delimited hs)⟩
  | final word =>
    dsimp only
    split <;> exact hall
  | absent => exact hall

/-- Where there is no word, the whole source has been read. -/
theorem nextWord_of_error {s s' : Source} {e : Ending} (h : s.nextWord = (.error e, s')) :
    e = s.ending ∧ s' = { s with rest := [] } := by
  unfold nextWord at h
  cases hs : scan .outside s.rest with
  | delimited word rest =>
    rw [hs] at h
    cases h
  | final word =>
    rw [hs] at h
    cases he : s.ending with
    | endOfInput =>
      simp only [he] at h
      cases h
    | failure message =>
      simp only [he] at h
      cases h
      exact ⟨rfl, rfl⟩
  | absent =>
    rw [hs] at h
    cases h
    exact ⟨rfl, rfl⟩

theorem nextWord_of_nil {s : Source} (h : s.rest = []) : s.nextWord = (.error s.ending, s) := by
  obtain ⟨rest, ending⟩ := s
  cases h
  rfl

def Drawn (s : Source) (i j : Option Source) : Prop := i = j ∧ ∃ s', i = some s' ∧ s.Left s'

/-- Reading from what is left of a source leaves something that is left of it. -/
theorem accord_drawn {α : Type} {E : Failure → Prop} {s : Source} {next : Source → Except Ending α × Source}
    (hnext : ∀ s' : Source, s'.Left (next s').2) (i j : Option Source) (h : s.Drawn i j) :
    Accord E s.Drawn (Terminal.take next i) (Terminal.take next j) := by
  obtain ⟨rfl, s', rfl, hleft⟩ := h
  have hrest := hleft.trans (hnext s')
  cases hn : next s' with
  | mk result rest =>
    rw [hn] at hrest
    rw [Terminal.take, hn]
    have hdrawn : s.Drawn (some rest) (some rest) := ⟨rfl, rest, rfl, hrest⟩
    cases result with
    | ok a => exact .ok a hdrawn
    | error e => exact .error _ hdrawn

end Source

namespace Machine

variable {m m' : Machine} {s s' : Source} {i : Word}

def Draws (s : Source) (m : Machine) : Prop := ∃ s', m.console.input = some s' ∧ s.Left s'

/-- Every word leaves something that is left of the source. -/
theorem keepsPace_drawn (s : Source) (m : Machine) :
    KeepsPace (fun _ => False) (Console.Fed s.Drawn) m := by
  apply keepsPace_fed_of_reads
  · exact Source.accord_drawn Source.left_nextWord
  · exact Source.accord_drawn Source.left_nextChar

theorem Draws.paired (h : m.Draws s) : Paired (Console.Fed s.Drawn) m m :=
  ⟨rfl, ⟨⟨rfl, h⟩, rfl, rfl, rfl⟩⟩

theorem Paired.draws (h : Paired (Console.Fed s.Drawn) m m') : m.Draws s := h.console.input.2

/-- A run leaves something that is left of the source. -/
theorem Draws.run (h : m.Draws s) (n : Nat) : (run n m).2.Draws s :=
  (h.paired.runAlike noted_fed (keepsPace_drawn s) n).2.draws

def Listens (quit : Word) (M : Memory) : Prop :=
  ∃ i, M[quit]? = some (.ref i) ∧ M[i]? = some (.builtin .interpret)

/-- The word reads something from the input and puts a cell for it on the stack. -/
def Consumes {α : Type} (b : Builtin) (next : Source → Except Ending α × Source) (cell : α → Cell) : Prop :=
  b.contract = .ordinary ∧ ∀ w, b.perform w = Builtin.perform.finish do
    let x ← onConsole (Terminal.read next)
    onState (State.push (cell x))

/-- WORD reads a word and puts its text on the stack. -/
theorem consumes_word : Consumes .word Source.nextWord .text := ⟨rfl, fun _ => rfl⟩

/-- KEY reads a character and puts it on the stack. -/
theorem consumes_key : Consumes .key Source.nextChar fun c => .char (Int32.ofNat c.toNat) :=
  ⟨rfl, fun _ => rfl⟩

section Next

variable {α : Type} {next : Source → Except Ending α × Source} {cell : α → Cell} {x : α} {e : Ending}
  {b : Builtin} {w a code : Word} {f : Failure} {M : Memory} {D : Dictionary} {R : Stack Word}
  {S : Stack Cell} {output : Option Sink}

theorem read_of_ok (hi : m.console.input = some s) (hn : next s = (.ok x, s')) :
    onConsole (Terminal.read next) m = .ok x { m with console.input := some s' } := by
  rw [onConsole_apply, Terminal.read_apply, hi, Terminal.take, hn]

theorem read_of_error (hi : m.console.input = some s) (hn : next s = (.error e, s')) :
    onConsole (Terminal.read next) m =
      .error (Terminal.failureOf e) { m with console.input := some s' } := by
  rw [onConsole_apply, Terminal.read_apply, hi, Terminal.take, hn]

theorem Consumes.perform (hb : Consumes b next cell) (hr : onConsole (Terminal.read next) m = .ok x m') :
    (Primitive.builtin b).perform w m = .ok none { m' with
      state := { m'.state with
        ip := m'.state.nip, nip := m'.state.nip + 1, stack := cell x :: m'.state.stack } } := by
  have hperform : b.perform w m = .ok none { m' with
      state := { m'.state with stack := cell x :: m'.state.stack } } := by
    rw [hb.2, Builtin.perform_finish_apply, Action.bind_apply, hr]
    rfl
  simp only [Primitive.perform, hb.1, Action.bind_apply, hperform]
  rfl

theorem Consumes.perform_error (hb : Consumes b next cell)
    (hr : onConsole (Terminal.read next) m = .error f m') :
    (Primitive.builtin b).perform w m = .error f m' := by
  have hperform : b.perform w m = .error f m' := by
    rw [hb.2, Builtin.perform_finish_apply, Action.bind_apply, hr]
  simp only [Primitive.perform, hb.1, Action.bind_apply, hperform]

/-- A cell that refers to a word which reads something. -/
theorem Consumes.leads (hb : Consumes b next cell) (hc : M[a]? = some (.ref code))
    (hf : M[code]? = some (.builtin b)) (hn : next s = (.ok x, s')) :
    Leads (Shows (State.running M D a R S) (some s) output)
      (Shows (State.running M D (a.plus 1) R (cell x :: S)) (some s') output) := by
  apply leads_of_performs hc (resolve_ref hf)
  intro m hm
  refine ⟨_, hb.perform (read_of_ok hm.input hn), ?_, rfl, fun o ho => ?_⟩
  · rw [hm.state]
    rfl
  · exact hm.output o ho

/-- A cell that refers to a word which comes to the end of the input. -/
theorem Consumes.fails (hb : Consumes b next cell) (hc : M[a]? = some (.ref code))
    (hf : M[code]? = some (.builtin b)) (hn : next s = (.error .endOfInput, s')) :
    Fails (Shows (State.running M D a R S) (some s) output) .endOfInput b.name
      (Shows (State.running M D a R S) (some s') output) := by
  have hname : (Primitive.builtin b).name = b.name := rfl
  apply fails_of_raises hc (resolve_ref hf) hname
  intro m hm
  refine ⟨_, _, hb.perform_error (read_of_error hm.input hn), rfl, rfl, ?_, rfl, fun o ho => ?_⟩
  · exact hm.state
  · exact hm.output o ho

end Next

theorem nextWord_of_word {word : String} (hi : m.console.input = some s)
    (hw : s.nextWord = (.ok word, s')) :
    Terminal.nextWord m = .ok word { m with console.input := some s' } :=
  read_of_ok hi hw

theorem nextWord_of_no_word {e : Ending} (hi : m.console.input = some s)
    (hw : s.nextWord = (.error e, s')) :
    Terminal.nextWord m = .error (Terminal.failureOf e) { m with console.input := some s' } :=
  read_of_error hi hw

theorem draws_of_accord {r r' : EStateM.Result Trap Machine Unit}
    (h : Accord (fun _ => False) (Paired (Console.Fed s.Drawn)) r r') : (endState r).Draws s := by
  cases h with
  | ok a hR => exact hR.draws
  | error e hR => exact hR.draws
  | excused r he => exact he.elim

/-- A step of INTERPRET that finds a word leaves what comes after the word, or less. -/
theorem draws_step_of_word {word : String} (hl : Listens m.state.ip m.state.memory)
    (hi : m.console.input = some s) (hw : s.nextWord = (.ok word, s')) : (endState (step m)).Draws s' := by
  obtain ⟨i, hc, hf⟩ := hl
  let p := Primitive.builtin .interpret
  have hr : resolve m.state m.state.ip (.ref i) = .ok (i, p) := resolve_ref hf
  have hfirst : Runs m i p (m.begin p) := .first hc hr
  have hbegun : (m.begin p).console.input = some s := (Console.note_input _ _).trans hi
  have hperform : p.perform i (m.begin p) =
      onState (Compiler.meaning word) { m.begin p with console.input := some s' } := by
    simp only [p, Primitive.perform, Builtin.contract, Builtin.perform, Compiler.interpret,
      Action.bind_apply, nextWord_of_word hbegun hw]
  have hread : ({ m.begin p with console.input := some s' } : Machine).Draws s' := ⟨s', rfl, .refl s'⟩
  have hinvoke : Tallies (fun _ => False) (Console.Fed s'.Drawn) (invoke i p (m.begin p))
      (invoke i p (m.begin p)) := by
    apply tallies_invoke noted_fed (keepsPace_drawn s' m) hfirst
    rw [hperform]
    exact tallies_onState hread.paired _
  rw [step_eq_conclude hc hr]
  exact draws_of_accord (accord_conclude p.name noted_fed rfl rfl hinvoke)

/-- A step of INTERPRET that finds no word. -/
theorem step_of_no_word {e : Ending} (hl : Listens m.state.ip m.state.memory)
    (hi : m.console.input = some s) (hw : s.nextWord = (.error e, s')) :
    ∃ t m', step m = .error t m' ∧ m'.console.input = some s' ∧ m'.state.memory = m.state.memory ∧
      t.kind = (Terminal.failureOf e).kind ∧ ∀ message, e = .failure message → t.cause = some message := by
  obtain ⟨i, hc, hf⟩ := hl
  let p := Primitive.builtin .interpret
  have hr : resolve m.state m.state.ip (.ref i) = .ok (i, p) := resolve_ref hf
  have hbegun : (m.begin p).console.input = some s := (Console.note_input _ _).trans hi
  have hperform : p.perform i (m.begin p) =
      .error (Terminal.failureOf e) { m.begin p with console.input := some s' } := by
    simp only [p, Primitive.perform, Builtin.contract, Builtin.perform, Compiler.interpret,
      Action.bind_apply, nextWord_of_no_word hbegun hw]
  rw [step_eq_of_resolve hc hr, invoke_of_perform_error hperform]
  refine ⟨_, _, rfl, ?_, rfl, ?_, ?_⟩
  · rw [Console.note_input]
  · rw [kind_bind, Failure.kind_inWord]
  · rintro message rfl
    rfl

section Listening

variable (hl : Listens m.state.ip m.state.memory) (hi : m.console.input = some s)

include hl hi

/-- A run that starts in the outer interpreter reads something, if there is anything. -/
theorem run_shortens (hne : s.rest ≠ []) (n : Nat) :
    ∃ s', (run (n + 1) m).2.console.input = some s' ∧ s'.rest.length < s.rest.length := by
  have hstep : ∃ s', (endState (step m)).Draws s' ∧ s'.rest.length < s.rest.length := by
    cases hw : s.nextWord with
    | mk result s' =>
      cases result with
      | ok word => exact ⟨s', draws_step_of_word hl hi hw, Source.length_of_nextWord hw⟩
      | error e =>
        -- what was left was no word, and it has been read all the same
        obtain ⟨-, rfl⟩ := Source.nextWord_of_error hw
        obtain ⟨t, m', hs, hinput, -⟩ := step_of_no_word hl hi hw
        rw [hs]
        exact ⟨_, ⟨_, hinput, .refl _⟩, List.length_pos_iff.mpr hne⟩
  obtain ⟨s', hdraws, hshort⟩ := hstep
  have hrun : (run (n + 1) m).2.Draws s' := by
    rw [run]
    cases hs : step m with
    | ok u m₁ =>
      rw [hs] at hdraws
      exact hdraws.run n
    | error t m₁ =>
      rw [hs] at hdraws
      dsimp only
      split <;> exact hdraws
  obtain ⟨s'', hinput, hleft⟩ := hrun
  exact ⟨s'', hinput, Nat.lt_of_le_of_lt hleft.length hshort⟩

/-- A run that finds the input at its end is finished. -/
theorem run_of_end (hnil : s.rest = []) (hend : s.ending = .endOfInput) (n : Nat) :
    (run (n + 1) m).1 = .finished := by
  obtain ⟨t, m', hs, -, -, hkind, -⟩ := step_of_no_word hl hi (Source.nextWord_of_nil hnil)
  rw [hend] at hkind
  rw [run, hs]
  dsimp only
  rw [if_pos (.inr hkind)]

/-- The run fails at once, and everything is as it was. -/
theorem run_of_failure {message : String} (hnil : s.rest = []) (hend : s.ending = .failure message)
    (n : Nat) : ∃ t m', run (n + 1) m = (.trapped t, m') ∧ t.kind = .ioFailure ∧ t.cause = some message ∧
      m'.console.input = some s ∧ m'.state.memory = m.state.memory := by
  obtain ⟨t, m', hs, hinput, hmemory, hkind, hcause⟩ :=
    step_of_no_word hl hi (Source.nextWord_of_nil hnil)
  have hio : t.kind = .ioFailure := by
    rw [hkind, hend]
    rfl
  refine ⟨t, m', ?_, hio, hcause message hend, hinput, hmemory⟩
  rw [run, hs]
  dsimp only
  rw [if_neg (by simp [hio])]

end Listening

end Machine

end ForthMachine
