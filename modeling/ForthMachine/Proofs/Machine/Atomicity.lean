import ForthMachine.Proofs.Machine.Trail

namespace ForthMachine

open Memory State

namespace Machine

def Resolves (m : Machine) : Prop :=
  ∃ c w p, m.state.memory[m.state.ip]? = some c ∧ resolve m.state m.state.ip c = .ok (w, p)

def FailsIn (m : Machine) (b : Builtin) : Prop :=
  ∃ earlier w m₁ f m₂, Trail m earlier w (.builtin b) m₁ ∧ b.perform w m₁ = .error f m₂

/-- The step from `m` fails in a primitive to which the words `earlier`, the last one first, have handed
over one after another. -/
def FailsAfter (m : Machine) (earlier : List Builtin) : Prop :=
  ∃ w p m₁ f m₂, Trail m earlier w p m₁ ∧ p.perform w m₁ = .error f m₂

structure Frame (m : Machine) (kind : Trap.Kind) (st : State) : Prop where
  ip : st.ip = m.state.ip
  nip : m.Resolves → st.nip = m.state.ip + 1
  returns : st.returns = m.state.returns
  stack : st.stack <:+ m.state.stack
  contents : st.contents = m.state.contents ∨ kind.IsFault ∧ ∃ b k, m.FailsIn b ∧
    Halfway (m.state.begun.taking k) b st
  unresolved : ¬m.Resolves → st = m.state

variable {m m' m₁ m₂ : Machine} {w code : Word} {p : Primitive} {b : Builtin} {f : Failure} {t : Trap}
  {earlier : List Builtin}

/-- A step that runs a primitive has found one at the instruction pointer. -/
theorem Trail.resolves (h : Trail m earlier w p m₁) : m.Resolves := by
  induction h with
  | first hc hr => exact ⟨_, _, _, hc, hr⟩
  | next _ _ _ ih => exact ih

theorem frame_of_eq (hr : ¬m.Resolves) (kind : Trap.Kind) : Frame m kind m.state where
  ip := rfl
  nip h := absurd h hr
  returns := rfl
  stack := List.suffix_rfl
  contents := .inl rfl
  unresolved _ := rfl

/-- A step that has only taken cells keeps to the frame. -/
theorem frame_of_taking {st : State} {k : Nat} (hr : m.Resolves)
    (h : st = m.state.begun.taking k) (kind : Trap.Kind) : Frame m kind st := by
  subst h
  exact ⟨rfl, fun _ => rfl, rfl, List.drop_suffix k _, .inl rfl, fun hn => absurd hr hn⟩

/-- A word that stops when it is half done keeps to the frame. -/
theorem frame_of_halfway {st : State} {kind : Trap.Kind} {k : Nat} (hr : m.Resolves) (hb : m.FailsIn b)
    (h : Halfway (m.state.begun.taking k) b st) (hf : kind.IsFault) : Frame m kind st := by
  have hcontents : st.contents = m.state.contents ∨ kind.IsFault ∧ ∃ b k, m.FailsIn b ∧
      Halfway (m.state.begun.taking k) b st := .inr ⟨hf, b, k, hb, h⟩
  have hsuffix : m.state.stack.drop k <:+ m.state.stack := List.drop_suffix k _
  cases h with
  | @move count source target rest t s n j memory hs =>
    have hrest : rest <:+ m.state.stack.drop k := by
      have hs' : m.state.stack.drop k = count :: source :: target :: rest := hs
      rw [hs']
      exact ⟨[count, source, target], rfl⟩
    exact ⟨rfl, fun _ => rfl, rfl, hrest.trans hsuffix, hcontents, fun hn => absurd hr hn⟩
  | semicolon _ _ => exact ⟨rfl, fun _ => rfl, rfl, hsuffix, hcontents, fun hn => absurd hr hn⟩

/-- What a primitive has done when it fails. Words of the host have done nothing. -/
theorem recoils_primitive (h : p.perform w m₁ = .error f m₂) :
    (∃ k, m₂.state = m₁.state.taking k ∧ (f.IsUnderflow → k = 0)) ∨
      ∃ b, p = .builtin b ∧ Halfway m₁.state b m₂.state ∧ f.kind.IsFault := by
  cases p with
  | host name contract =>
    cases contract <;> cases h <;> exact .inl ⟨0, rfl, fun _ => rfl⟩
  | builtin b =>
    rcases Builtin.recoils_or_halfway (perform_error h) with hk | hhalf
    · exact .inl hk
    · exact .inr ⟨b, rfl, hhalf⟩

/-- A word that hands over has taken a cell at most. -/
theorem taking_of_handOver (h : (Primitive.builtin b).perform w m₁ = .ok (some code) m₂) :
    ∃ k, m₂.state = m₁.state.taking k := by
  rcases Builtin.state_of_handOver (perform_handOver h) with ⟨-, c, s, hs, hst⟩ | ⟨-, hst⟩
  · refine ⟨1, ?_⟩
    rw [hst, State.taking, hs]
    rfl
  · exact ⟨0, hst⟩

/-- By the four ways in which a step can fail. -/
theorem frame_of_step (h : step m = .error t m') : Frame m t.kind m'.state := by
  have hstops := stops_of_step h
  generalize t.kind = kind, m'.state = st at hstops
  cases hstops with
  | unwritten hc =>
    apply frame_of_eq
    rintro ⟨c, w, p, hc', -⟩
    rw [hc] at hc'
    cases hc'
  | unresolved hc hr =>
    apply frame_of_eq
    rintro ⟨c, w, p, hc', hr'⟩
    cases hc.symm.trans hc'
    rw [hr] at hr'
    cases hr'
  | raised ht hp =>
    obtain ⟨-, hst⟩ := ht.state
    rcases recoils_primitive hp with ⟨k, hk, -⟩ | ⟨b, rfl, hhalf, hfault⟩
    · rw [hst, State.taking_taking] at hk
      exact frame_of_taking ht.resolves hk _
    · rw [hst] at hhalf
      exact frame_of_halfway ht.resolves ⟨_, _, _, _, _, ht, perform_error hp⟩ hhalf hfault
  | misdirected ht hp _ =>
    obtain ⟨-, hst⟩ := ht.state
    obtain ⟨k, hk⟩ := taking_of_handOver hp
    rw [hst, State.taking_taking] at hk
    exact frame_of_taking ht.resolves hk _

theorem not_underflow_codeField {st st' : State} (h : codeField code st = .error f st') :
    ¬f.IsUnderflow :=
  ((refuses_fetch code).bind (reads_fetch code) (fun _ => refuses_orRaiseAt _ _ (by decide))
    st f st' h).2

theorem kind_of_resolve {st : State} {a : Word} {c : Cell} (h : resolve st a c = .error t) :
    t.kind = .unresolvable := by
  unfold resolve at h
  split at h <;> split at h <;> cases h <;> rfl

end Machine

/-- Edits one after another, with the number of cells that each of them takes: three for a header, one for
a cell of code, none for flags and the mode. -/
inductive Edits : Memory × Dictionary → List Nat → Memory × Dictionary → Prop where
  | nil (x : Memory × Dictionary) : Edits x [] x
  | cons {x y z : Memory × Dictionary} {n : Nat} {sizes : List Nat} :
      Edit x n y → Edits y sizes z → Edits x (n :: sizes) z

theorem Edit.edits {x y : Memory × Dictionary} {n : Nat} (h : Edit x n y) : Edits x [n] y :=
  .cons h (.nil y)

theorem Edits.append {x y z : Memory × Dictionary} {ms ns : List Nat} (h : Edits x ms y)
    (h' : Edits y ns z) : Edits x (ms ++ ns) z := by
  induction h with
  | nil x => exact h'
  | cons he _ ih => exact .cons he (ih h')

def Completes {σ α : Type} (view : σ → State) (sizes : List Nat) (x : Action σ α) : Prop :=
  ∀ s a s', x s = .ok a s' → Edits (view s).contents sizes (view s').contents

/-- An action that was begun in a state has made all of its edits, which have the given sizes, or none. -/
def AllOrNothing {σ α : Type} (view : σ → State) (sizes : List Nat) (st : State) :
    EStateM.Result Failure σ α → Prop
  | .ok _ s => Edits st.contents sizes (view s).contents
  | .error _ s => (view s).contents = st.contents

section Completes

variable {σ α β : Type} {view : σ → State} {x : Action σ α} {g : α → Action σ β} {ms ns : List Nat}

theorem Idle.completes (hx : Idle view x) : Completes view [] x := by
  intro s a s' h
  have hs := hx s
  rw [h, endState_ok] at hs
  rw [hs]
  exact .nil _

/-- Edits after edits, when both actions succeed. -/
theorem Completes.bind (hx : Completes view ms x) (hg : ∀ a, Completes view ns (g a)) :
    Completes view (ms ++ ns) (x >>= g) := by
  intro s b s' h
  obtain ⟨a, s₁, ha, hb⟩ := Action.ok_of_bind h
  exact (hx s a s₁ ha).append (hg a s₁ b s' hb)

theorem Completes.bind_idle (hx : Completes view ns x) (hg : ∀ a, Idle view (g a)) :
    Completes view ns (x >>= g) := by
  have h := hx.bind fun a => (hg a).completes
  rwa [List.append_nil] at h

theorem Idle.bind_completes (hx : Idle view x) (hg : ∀ a, Completes view ns (g a)) :
    Completes view ns (x >>= g) :=
  hx.completes.bind hg

/-- Edits of the state are edits of the machine. -/
theorem Completes.onState {x : Action State α} (hx : Completes whole ns x) :
    Completes Machine.state ns (Machine.onState x) :=
  fun _ _ _ h => hx _ _ _ (Machine.ok_of_onState h)

/-- An action that makes edits when it succeeds and only takes cells when it fails. -/
theorem allOrNothing_of_recoils (hr : Recoils view x) (hc : Completes view ns x) (s : σ) :
    AllOrNothing view ns (view s) (x s) := by
  cases h : x s with
  | ok a s' => exact hc s a s' h
  | error f s' =>
    obtain ⟨k, hk, -⟩ := hr s f s' h
    change (view s').contents = (view s).contents
    rw [hk]
    rfl

end Completes

namespace State

theorem completes_comma (c : Cell) : Completes whole [1] (comma c) := by
  intro st u st' h
  obtain ⟨d, a, hd, ha, rfl⟩ := ok_of_comma h
  exact (Edit.cell st.dictionary c hd ha).edits

theorem completes_define (name : String) : Completes whole [3] (define name) := by
  intro st i st' h
  obtain ⟨d, a, link, hd, ha, hl, rfl⟩ := ok_of_define h
  exact (Edit.header st.dictionary name hd ha hl).edits

theorem completes_modifyFlags (i : Nat) (f : Flags → Flags) : Completes whole [0] (modifyFlags i f) := by
  intro st u st' h
  cases h
  exact (Edit.flags st.memory st.dictionary i f).edits

theorem completes_mode (c : Cell) : Completes whole [0] (store stateAddress c) := by
  intro st u st' h
  cases h
  exact (Edit.mode st.memory st.dictionary c).edits

end State

namespace Compiler

theorem completes_compileLiteral (c : Cell) : Completes whole [1, 1] (compileLiteral c) :=
  (completes_comma _).bind fun _ => completes_comma c

/-- A definition begins with a header and its first cell of code, and then the flags and the mode are set.
-/
theorem completes_beginDefinition (name : String) : Completes whole [3, 1, 0, 0] (beginDefinition name) :=
  (completes_define name).bind fun _ => (completes_comma _).bind fun _ =>
    (completes_modifyFlags _ _).bind fun _ => completes_mode _

end Compiler

namespace Builtin

open Machine

theorem completes_finish {ns : List Nat} {x : Action Machine Unit} (hx : Completes Machine.state ns x) :
    Completes Machine.state ns (perform.finish x) :=
  hx.bind_idle fun _ => idle_pure _

/-- Every word but MOVE and the semicolon only takes cells when it fails. -/
theorem allOrNothing_perform {b : Builtin} {ns : List Nat} {w : Word} (hb : b ≠ .move ∧ b ≠ .semicolon)
    (hc : Completes Machine.state ns (b.perform w)) (m : Machine) :
    AllOrNothing Machine.state ns m.state (b.perform w m) :=
  allOrNothing_of_recoils (recoils_perform hb.1 hb.2 w) hc m

theorem allOrNothing_comma (w : Word) (m : Machine) :
    AllOrNothing Machine.state [1] m.state (perform w .comma m) := by
  refine allOrNothing_perform (by decide) (completes_finish (Completes.onState ?_)) m
  exact (idle_onStack _).bind_completes completes_comma

theorem allOrNothing_literal (w : Word) (m : Machine) :
    AllOrNothing Machine.state [1, 1] m.state (perform w .literal m) := by
  refine allOrNothing_perform (by decide) (completes_finish (Completes.onState ?_)) m
  exact (idle_onStack _).bind_completes Compiler.completes_compileLiteral

theorem allOrNothing_create (w : Word) (m : Machine) :
    AllOrNothing Machine.state [3] m.state (perform w .create m) := by
  refine allOrNothing_perform (by decide) (completes_finish (Completes.onState ?_)) m
  refine (idle_onStack _).bind_completes fun name => ?_
  intro st u st' h
  obtain ⟨i, hi⟩ := Action.ok_of_map h
  exact completes_define name st i st' hi

theorem allOrNothing_colon (w : Word) (m : Machine) :
    AllOrNothing Machine.state [3, 1, 0, 0] m.state (perform w .colon m) := by
  refine allOrNothing_perform (by decide) (completes_finish ?_) m
  exact idle_nextWord.bind_completes fun name => (Compiler.completes_beginDefinition name).onState

variable {w : Word} {m m₁ : Machine} {name : String}

/-- INTERPRET, where the word that it reads asks for something to be compiled. -/
theorem allOrNothing_interpret {ns : List Nat} {x : Action State Unit} (hn : Terminal.nextWord m = .ok name m₁)
    (he : Compiler.meaning name m.state = (do x; advance; pure none : Action State (Option Word)) m.state)
    (hr : Refuses whole x) (hc : Completes whole ns x) :
    AllOrNothing Machine.state ns m.state (perform w .interpret m) := by
  have hm : m₁.state = m.state := state_of_nextWord hn
  have hrun : perform w .interpret m = Machine.onState (do x; advance; pure none) m₁ := by
    simp only [perform, Compiler.interpret, Action.bind_apply, hn, onState_apply, hm, he]
  rw [hrun, ← hm]
  have hrest : Succeeds (do advance; pure none : Action State (Option Word)) :=
    succeeds_advance.bind fun _ => succeeds_pure _
  have hidle : Idle whole (do advance; pure none : Action State (Option Word)) :=
    idle_advance.bind fun _ => idle_pure _
  refine allOrNothing_of_recoils (recoils_onState ?_) (Completes.onState ?_) m₁
  · exact (hr.bind_succeeds fun _ => hrest).recoils
  · exact hc.bind_idle fun _ => hidle

theorem allOrNothing_interpret_name {e : Entry} (hn : Terminal.nextWord m = .ok name m₁)
    (hc : m.state.isCompiling = true) (hf : m.state.dictionary.find? name = some e)
    (hi : e.flags.immediate = false) :
    AllOrNothing Machine.state [1] m.state (perform w .interpret m) := by
  refine allOrNothing_interpret hn ?_ (refuses_comma (.ref e.code)) (completes_comma _)
  simp [Compiler.meaning, hf, hi, hc]

theorem allOrNothing_interpret_number {k : Word} (hn : Terminal.nextWord m = .ok name m₁)
    (hc : m.state.isCompiling = true) (hf : m.state.dictionary.find? name = none)
    (hk : Numeral.decimal? name.toList = some k) :
    AllOrNothing Machine.state [1, 1] m.state (perform w .interpret m) := by
  refine allOrNothing_interpret hn ?_ (Compiler.refuses_compileLiteral (.int k))
    (Compiler.completes_compileLiteral _)
  simp [Compiler.meaning, hf, hk, hc]

end Builtin

namespace Machine

/-- A step that fails keeps its frame, whatever the machine and its devices are. The words that build
definitions are all or nothing on memory and dictionary. -/
theorem failing_step_keeps_frame :
    (∀ (m m' : Machine) (t : Trap), step m = .error t m' → Frame m t.kind m'.state) ∧
    (∀ (name : String) (st : State), AllOrNothing whole [3] st (define name st)) ∧
    (∀ (w : Word) (m : Machine),
      AllOrNothing Machine.state [3, 1, 0, 0] m.state (Builtin.colon.perform w m) ∧
      AllOrNothing Machine.state [3] m.state (Builtin.create.perform w m) ∧
      AllOrNothing Machine.state [1] m.state (Builtin.comma.perform w m) ∧
      AllOrNothing Machine.state [1, 1] m.state (Builtin.literal.perform w m)) ∧
    ∀ (w : Word) (m m₁ : Machine) (name : String), Terminal.nextWord m = .ok name m₁ →
      m.state.isCompiling = true →
      (∀ e, m.state.dictionary.find? name = some e → e.flags.immediate = false →
        AllOrNothing Machine.state [1] m.state (Builtin.interpret.perform w m)) ∧
      ∀ k, m.state.dictionary.find? name = none → Numeral.decimal? name.toList = some k →
        AllOrNothing Machine.state [1, 1] m.state (Builtin.interpret.perform w m) := by
  refine ⟨fun m m' t h => frame_of_step h, fun name st => ?_, fun w m => ?_, fun w m m₁ name hn hc => ?_⟩
  · exact allOrNothing_of_recoils (refuses_define name).recoils (completes_define name) st
  · exact ⟨Builtin.allOrNothing_colon w m, Builtin.allOrNothing_create w m,
      Builtin.allOrNothing_comma w m, Builtin.allOrNothing_literal w m⟩
  · exact ⟨fun e hf hi => Builtin.allOrNothing_interpret_name hn hc hf hi,
      fun k hf hk => Builtin.allOrNothing_interpret_number hn hc hf hk⟩

end Machine

namespace StoppedMove

/-- A machine about to execute a MOVE of two cells, of which only the first one was ever written. -/
def machine : Machine where
  state := {
    ip := 10
    nip := 11
    memory := load (load ∅ 10 [.builtin .execute, .builtin .interpret, .builtin .move]) 20 [.int 7]
    stack := [.addr 12, .int 2, .int 20, .int 30, .nil] }

def compiling : Machine where
  state := { memory := load ∅ hereAddress [.int 5, .nil, .int 1] }
  console := { input := some { rest := "42".toList } }

end StoppedMove

namespace Machine

open StoppedMove

theorem stopped_move_keeps_frame :
    (∃ t m', step machine = .error t m' ∧ t.kind = .unwrittenAddress ∧ Frame machine t.kind m'.state ∧
      m'.state.stack = [.nil] ∧ m'.state.memory[(30 : Word)]? = some (.int 7)) ∧
    AllOrNothing Machine.state [1, 1] compiling.state (Builtin.interpret.perform 0 compiling) := by
  obtain ⟨hframe, -, -, hinterpret⟩ := failing_step_keeps_frame
  refine ⟨⟨_, _, rfl, rfl, hframe _ _ _ rfl, rfl, ?_⟩, ?_⟩
  · decide
  · exact (hinterpret 0 compiling _ "42" rfl (by decide)).2 42 rfl (by decide)

variable {m m' : Machine} {t : Trap}

/-- A step that fails for want of cells has done nothing but that every EXECUTE in it has taken its
execution token. -/
theorem underflow_costs_only_tokens (hn : m.state.nip = m.state.ip + 1) (h : step m = .error t m')
    (hk : t.kind = .stackUnderflow ∨ t.kind = .returnUnderflow) :
    ∃ earlier, m.FailsAfter earlier ∧ (∀ earlier', m.FailsAfter earlier' → earlier' = earlier) ∧
      earlier.count .execute ≤ m.state.stack.length ∧
      m'.state = m.state.taking (earlier.count .execute) ∧
      (.execute ∉ earlier → m'.state = m.state) := by
  have hstops := stops_of_step h
  generalize t.kind = kind, m'.state = st at hstops hk ⊢
  -- of the four ways in which a step can fail only the failure of a primitive is for want of cells
  cases hstops with
  | unwritten _ => rcases hk with hk | hk <;> cases hk
  | unresolved _ hr =>
    rw [kind_of_resolve hr] at hk
    rcases hk with hk | hk <;> cases hk
  | misdirected _ _ hf => exact absurd hk (not_underflow_codeField hf)
  | @raised earlier w p m₁ m₂ f ht hp =>
    obtain ⟨hle, hst⟩ := ht.state
    have hstate : m₂.state = m.state.taking (earlier.count .execute) := by
      rcases recoils_primitive hp with ⟨k, hrest, hzero⟩ | ⟨b, -, -, hfault⟩
      · rw [hrest, hzero hk, State.taking_zero, hst, State.begun_of_nip hn]
      · exact absurd hk (Failure.not_underflow_of_fault hfault)
    refine ⟨earlier, ⟨w, p, m₁, f, m₂, ht, hp⟩, ?_, hle, hstate, fun hnone => ?_⟩
    · rintro earlier' ⟨w', p', m₃, f', m₄, ht', hp'⟩
      exact (ht'.unique_of_error hp' ht hp).1
    · rw [hstate, List.count_eq_zero_of_not_mem hnone, State.taking_zero]

end Machine

namespace NestedUnderflow

/-- A machine about to execute an EXECUTE, which executes a DROP for which no cell is left. -/
def machine : Machine where
  state := {
    ip := 10
    nip := 11
    memory := load ∅ 10 [.builtin .execute, .nil, .builtin .drop]
    stack := [.addr 10, .addr 12] }

theorem failsAfter_machine : machine.FailsAfter [.execute, .execute] := by
  have hfirst : machine.Trail [] 10 (.builtin .execute) (machine.begin (.builtin .execute)) :=
    .first (c := .builtin .execute) rfl rfl
  have hsecond : machine.Trail [.execute] 10 (.builtin .execute) _ := hfirst.next rfl rfl
  have hthird : machine.Trail [.execute, .execute] 12 (.builtin .drop) _ := hsecond.next rfl rfl
  exact ⟨_, _, _, _, _, hthird, rfl⟩

end NestedUnderflow

namespace Machine

open NestedUnderflow

theorem nested_underflow_costs_two_tokens :
    ∃ t m', step machine = .error t m' ∧ t.kind = .stackUnderflow ∧ machine.state.nip = machine.state.ip + 1 ∧
      m'.state = machine.state.taking 2 := by
  refine ⟨_, _, rfl, rfl, rfl, ?_⟩
  obtain ⟨earlier, -, hunique, -, hstate, -⟩ :=
    underflow_costs_only_tokens (m := machine) rfl rfl (.inl rfl)
  rw [← hunique _ failsAfter_machine] at hstate
  exact hstate

end Machine

end ForthMachine
