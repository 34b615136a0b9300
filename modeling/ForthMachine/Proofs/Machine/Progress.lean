import ForthMachine.Proofs.Machine.Action

/-!
Runs of the machine. A machine is described by its state, its input and its output; what the trace
does to the devices is left open. The output is described only for a console that keeps trace text
apart from it, which is the one case in which trace text cannot be mistaken for output.
-/

namespace ForthMachine

namespace Console

/-- Trace text does not go to the output. -/
def KeepsTraceApart (c : Console) : Prop := c.tracing = false ∨ c.trace.isSome = true

@[simp] theorem note_input (c : Console) (piece : String) : (c.note piece).input = c.input := by
  unfold note
  split
  · split <;> rfl
  · rfl

/-- Trace text with a sink of its own does not get into the output. -/
theorem KeepsTraceApart.note_output {c : Console} (h : c.KeepsTraceApart) (piece : String) :
    (c.note piece).output = c.output := by
  unfold note
  rcases h with h | h
  · rw [if_neg (by simp [h])]
  · obtain ⟨sink, hs⟩ := Option.isSome_iff_exists.mp h
    rw [hs]
    split <;> rfl

theorem KeepsTraceApart.note {c : Console} (h : c.KeepsTraceApart) (piece : String) :
    (c.note piece).KeepsTraceApart := by
  unfold Console.note
  rcases h with h | h
  · rw [if_neg (by simp [h])]
    exact .inl h
  · obtain ⟨sink, hs⟩ := Option.isSome_iff_exists.mp h
    rw [hs]
    split
    · exact .inr rfl
    · exact .inr h

end Console

namespace Machine

/-- A machine in a given state with a given input. Where an output is given, the machine has it and
keeps trace text apart from it. -/
structure Shows (st : State) (input : Option Source) (output : Option Sink) (m : Machine) : Prop where
  state : m.state = st
  input : m.console.input = input
  output : ∀ o, output = some o → m.console.KeepsTraceApart ∧ m.console.output = o

namespace Shows

variable {st : State} {input : Option Source} {output : Option Sink} {m : Machine}

theorem note (h : Shows st input output m) (piece : String) :
    Shows st input output { m with console := m.console.note piece } where
  state := h.state
  input := (Console.note_input _ _).trans h.input
  output o ho := by
    obtain ⟨hq, hout⟩ := h.output o ho
    exact ⟨hq.note piece, (hq.note_output piece).trans hout⟩

theorem noteStack (h : Shows st input output m) : Shows st input output m.noteStack := by
  have hfold : ∀ (cells : List Cell) (c : Console), Shows st input output { m with console := c } →
      Shows st input output
        { m with console := cells.foldl (fun c cell => c.note (" " ++ cell.render)) c } := by
    intro cells
    induction cells with
    | nil => exact fun _ hc => hc
    | cons cell cells ih => exact fun c hc => ih _ (hc.note _)
  exact (hfold m.state.stack m.console h).note "\n"

theorem withState (h : Shows st input output m) (st' : State) :
    Shows st' input output { m with state := st' } :=
  ⟨rfl, h.input, h.output⟩

end Shows

inductive Reaches : Machine → Machine → Prop where
  | refl (m : Machine) : Reaches m m
  | head {m m' m'' : Machine} : step m = .ok () m' → Reaches m' m'' → Reaches m m''

theorem Reaches.trans {m m' m'' : Machine} (h : Reaches m m') (h' : Reaches m' m'') :
    Reaches m m'' := by
  induction h with
  | refl => exact h'
  | head hs _ ih => exact .head hs (ih h')

/-- A run passes through the machines that are reached. -/
theorem Reaches.run {m m' : Machine} (h : Reaches m m') :
    ∃ n, ∀ k, Machine.run (n + k) m = Machine.run k m' := by
  induction h with
  | refl m => exact ⟨0, fun k => by rw [Nat.zero_add]⟩
  | head hs _ ih =>
    obtain ⟨n, hn⟩ := ih
    refine ⟨n + 1, fun k => ?_⟩
    rw [Nat.add_right_comm, Machine.run, hs]
    exact hn k

/-- A run that has ended does not change when more steps are allowed. -/
theorem run_mono {n k : Nat} {m m' : Machine} {o : Outcome} (h : Machine.run n m = (o, m'))
    (ho : o ≠ .cancelled) (hk : n ≤ k) : Machine.run k m = (o, m') := by
  induction n generalizing m k with
  | zero =>
    rw [Machine.run, Prod.mk.injEq] at h
    exact absurd h.1.symm ho
  | succ n ih =>
    obtain ⟨k, rfl⟩ : ∃ j, k = j + 1 := ⟨k - 1, by omega⟩
    rw [Machine.run] at h ⊢
    cases hs : step m with
    | ok u m₁ =>
      rw [hs] at h
      exact ih h (by omega)
    | error t m₁ =>
      rw [hs] at h
      exact h

/-- From every machine of one sort, steps lead to one of another sort. -/
def Leads (P Q : Machine → Prop) : Prop := ∀ m, P m → ∃ m', Reaches m m' ∧ Q m'

/-- From every machine of one sort, steps lead to a trap for the given reason in the given word, and
the machine is then of another sort. -/
def Fails (P : Machine → Prop) (kind : Trap.Kind) (word : String) (Q : Machine → Prop) : Prop :=
  ∀ m, P m → ∃ m₁ t m', Reaches m m₁ ∧ step m₁ = .error t m' ∧ t.kind = kind ∧ t.word = word ∧ Q m'

theorem Leads.refl (P : Machine → Prop) : Leads P P := fun m h => ⟨m, .refl m, h⟩

/-- Steps after steps. -/
theorem Leads.trans {P Q R : Machine → Prop} (h : Leads P Q) (h' : Leads Q R) : Leads P R := by
  intro m hm
  obtain ⟨m₁, hr, hq⟩ := h m hm
  obtain ⟨m₂, hr', hR⟩ := h' m₁ hq
  exact ⟨m₂, hr.trans hr', hR⟩

/-- Steps that lead to a trap. -/
theorem Leads.fails {P Q R : Machine → Prop} {kind : Trap.Kind} {word : String} (h : Leads P Q)
    (h' : Fails Q kind word R) : Fails P kind word R := by
  intro m hm
  obtain ⟨m₁, hr, hq⟩ := h m hm
  obtain ⟨m₂, t, m₃, hr', hs, hR⟩ := h' m₁ hq
  exact ⟨m₂, t, m₃, hr.trans hr', hs, hR⟩

theorem Fails.mono {P Q R : Machine → Prop} {kind : Trap.Kind} {word : String}
    (h : Fails P kind word Q) (hQ : ∀ m, Q m → R m) : Fails P kind word R := by
  intro m hm
  obtain ⟨m₁, t, m', hr, hs, hk, hw, hq⟩ := h m hm
  exact ⟨m₁, t, m', hr, hs, hk, hw, hQ m' hq⟩

/-- A primitive that goes through on every machine of one sort and leaves one of another sort. -/
def Performs (w : Word) (p : Primitive) (P Q : Machine → Prop) : Prop :=
  ∀ m, P m → ∃ m', p.perform w m = .ok none m' ∧ Q m'

def Raises (w : Word) (p : Primitive) (P : Machine → Prop) (kind : Trap.Kind) (Q : Machine → Prop) :
    Prop :=
  ∀ m, P m → ∃ t m', p.perform w m = .error (.trap t) m' ∧ t.word = "" ∧ t.kind = kind ∧ Q m'

theorem invoke_of_perform {w : Word} {p : Primitive} {m m' : Machine}
    (h : p.perform w m = .ok none m') : invoke w p m = .ok () m' := by
  simp [invoke, Action.inWord_apply, h]

theorem invoke_of_perform_error {w : Word} {p : Primitive} {m m' : Machine} {f : Failure}
    (h : p.perform w m = .error f m') : invoke w p m = .error (f.inWord p.name) m' := by
  simp [invoke, Action.inWord_apply, h]

/-- How a word that hands over goes on: the code field of the other word is looked up, and that word
runs in its place. -/
theorem invoke_of_handOver {w next : Word} {p q : Primitive} {m m₁ : Machine}
    (h : p.perform w m = .ok (some next) m₁)
    (hq : m₁.state.memory[next]? = some (.prim (some q))) :
    invoke w p m =
      match q.perform next { m₁ with console := m₁.console.note ("-> " ++ q.name ++ " ") } with
      | .ok none m₂ => .ok () m₂
      | .ok (some code) m₂ => Action.inWord p.name (Action.inWord q.name (handOver m₁.patience code)) m₂
      | .error f m₂ => .error ((f.inWord q.name).inWord p.name) m₂ := by
  have hfield : codeField next m₁.state = .ok q m₁.state := by
    simp [codeField, State.fetch_of_getElem? hq, Cell.primitive?]
  simp only [invoke, Action.inWord_apply, Action.bind_apply, h, Action.get_apply, handOver,
    onState_apply, hfield, note_apply]
  cases q.perform next { m₁ with console := m₁.console.note ("-> " ++ q.name ++ " ") } with
  | error f m₂ => rfl
  | ok code m₂ =>
    cases code with
    | none => rfl
    | some code => rfl

def begin (m : Machine) (p : Primitive) : Machine where
  state := { m.state with nip := m.state.ip + 1 }
  console := m.console.note ("@ " ++ Numeral.render m.state.ip ++ ": " ++ p.name ++ " ")

theorem step_eq_of_resolve {m : Machine} {c : Cell} {w : Word} {p : Primitive}
    (hc : m.state.memory[m.state.ip]? = some c) (hr : resolve m.state m.state.ip c = .ok (w, p)) :
    step m = match invoke w p (m.begin p) with
      | .ok () m' => .ok () m'.noteStack
      | .error f m' =>
        .error (bind f m.state m'.state p.name) { m' with console := m'.console.note "\n" } := by
  simp only [step, hc, hr]
  rfl

/-- A reference is resolved through the code field that it names. -/
theorem resolve_ref {st : State} {a code : Word} {p : Primitive}
    (h : st.memory[code]? = some (.prim (some p))) : resolve st a (.ref code) = .ok (code, p) := by
  simp [resolve, h, Cell.primitive?]

theorem resolve_prim (st : State) (a : Word) (p : Primitive) :
    resolve st a (.prim (some p)) = .ok (a, p) := rfl

theorem bind_kind (t : Trap) (before after : State) (name name' : String) :
    (bind ((Failure.trap t).inWord name) before after name').kind = t.kind := by
  by_cases hw : t.word = "" <;> by_cases hn : name = "" <;>
    simp [bind, Failure.inWord, Trap.inWord, hw, hn]

/-- A trap without a name gets that of the word that ran. -/
theorem bind_word {t : Trap} (h : t.word = "") (before after : State) (name : String) :
    (bind ((Failure.trap t).inWord name) before after name).word = name := by
  by_cases hn : name = "" <;> simp [bind, Failure.inWord, Trap.inWord, h, hn]

section Steps

variable {st st' : State} {input input' : Option Source} {output output' : Option Sink} {c : Cell}
  {w : Word} {p : Primitive}

/-- To begin a step sets the next cell and writes trace text. -/
theorem Shows.begin {m : Machine} (h : Shows st input output m) (p : Primitive) :
    Shows { st with nip := st.ip + 1 } input output (m.begin p) := by
  have hs : (m.begin p).state = { st with nip := st.ip + 1 } := by
    rw [Machine.begin, h.state]
  have hn := h.note ("@ " ++ Numeral.render m.state.ip ++ ": " ++ p.name ++ " ")
  exact ⟨hs, hn.input, hn.output⟩

/-- A step whose primitive goes through. -/
theorem leads_of_performs (hc : st.memory[st.ip]? = some c) (hr : resolve st st.ip c = .ok (w, p))
    (hp : Performs w p (Shows { st with nip := st.ip + 1 } input output) (Shows st' input' output')) :
    Leads (Shows st input output) (Shows st' input' output') := by
  intro m hm
  obtain ⟨m', hperform, hq⟩ := hp _ (hm.begin p)
  have hstate := hm.state
  refine ⟨m'.noteStack, .head ?_ (.refl _), hq.noteStack⟩
  rw [step_eq_of_resolve (by rw [hstate]; exact hc) (by rw [hstate]; exact hr),
    invoke_of_perform hperform]

/-- A step whose primitive raises a trap: the trap gets the name of the primitive. -/
theorem fails_of_raises {kind : Trap.Kind} {name : String} (hc : st.memory[st.ip]? = some c)
    (hr : resolve st st.ip c = .ok (w, p)) (hn : p.name = name)
    (hp : Raises w p (Shows { st with nip := st.ip + 1 } input output) kind (Shows st' input' output')) :
    Fails (Shows st input output) kind name (Shows st' input' output') := by
  subst hn
  intro m hm
  obtain ⟨t, m', hperform, hword, hkind, hq⟩ := hp _ (hm.begin p)
  have hstate := hm.state
  refine ⟨m, bind ((Failure.trap t).inWord p.name) m.state m'.state p.name, _, .refl m, ?_, ?_, ?_,
    hq.note "\n"⟩
  · rw [step_eq_of_resolve (by rw [hstate]; exact hc) (by rw [hstate]; exact hr),
      invoke_of_perform_error hperform]
  · rw [bind_kind, hkind]
  · exact bind_word hword _ _ _

end Steps

end Machine

end ForthMachine
