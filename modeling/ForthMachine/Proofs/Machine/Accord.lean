import ForthMachine.Proofs.Machine.Dispatch

/-!
Two machines side by side. They are in the same state and their consoles correspond in some way; when every
word that a step runs keeps it so, the step does, and then every number of steps. A step may be excused:
where the first machine fails for a certain reason, nothing is asked of the second one.
-/

namespace ForthMachine

open State

/-- The same value or the same failure, in states that correspond. If the first result is a failure that
is excused, the second one can be anything. -/
inductive Accord {ε σ α : Type} (excused : ε → Prop) (R : σ → σ → Prop) :
    EStateM.Result ε σ α → EStateM.Result ε σ α → Prop where
  | ok (a : α) {s s' : σ} : R s s' → Accord excused R (.ok a s) (.ok a s')
  | error (e : ε) {s s' : σ} : R s s' → Accord excused R (.error e s) (.error e s')
  | excused {e : ε} {s : σ} (r : EStateM.Result ε σ α) : excused e → Accord excused R (.error e s) r

section Composition

variable {σ α β : Type} {E : Failure → Prop} {R : σ → σ → Prop} {x : Action σ α} {s s' : σ}

/-- Actions that go on alike from states that correspond. -/
theorem Accord.bind {g : α → Action σ β} (h : Accord E R (x s) (x s'))
    (hg : ∀ a t t', R t t' → Accord E R (g a t) (g a t')) :
    Accord E R ((x >>= g) s) ((x >>= g) s') := by
  rw [Action.bind_apply, Action.bind_apply]
  generalize x s = r, x s' = r' at h
  cases h with
  | ok a hR => exact hg a _ _ hR
  | error e hR => exact .error e hR
  | excused r he => exact .excused _ he

theorem Accord.map (f : α → β) (h : Accord E R (x s) (x s')) :
    Accord E R ((f <$> x) s) ((f <$> x) s') := by
  rw [Action.map_apply, Action.map_apply]
  generalize x s = r, x s' = r' at h
  cases h with
  | ok a hR => exact .ok (f a) hR
  | error e hR => exact .error e hR
  | excused r he => exact .excused _ he

end Composition

namespace Machine

section Correspondence

variable {E : Trap.Kind → Prop} {R : Machine → Machine → Prop} {m m' : Machine} {w w' : Word}
  {p : Primitive}

/-- A correspondence that a step keeps by itself: the pointers, the memory and the stacks are the same, and
writing trace text or setting out on a step makes no difference. -/
structure Abreast (R : Machine → Machine → Prop) : Prop where
  ip : ∀ {m m'}, R m m' → m.state.ip = m'.state.ip
  nip : ∀ {m m'}, R m m' → m.state.nip = m'.state.nip
  memory : ∀ {m m'}, R m m' → m.state.memory = m'.state.memory
  stack : ∀ {m m'}, R m m' → m.state.stack = m'.state.stack
  returns : ∀ {m m'}, R m m' → m.state.returns = m'.state.returns
  note : ∀ {m m'} (piece : String), R m m' →
    R { m with console := m.console.note piece } { m' with console := m'.console.note piece }
  begun : ∀ {m m'}, R m m' → R { m with state := m.state.begun } { m' with state := m'.state.begun }

/-- The primitives that the step from `m` runs keep the machine in correspondence. -/
def Sustains (E : Trap.Kind → Prop) (R : Machine → Machine → Prop) (m : Machine) : Prop :=
  ∀ w p m₁ m₁', Runs m w p m₁ → R m₁ m₁' →
    Accord (fun f => E f.kind) R (p.perform w m₁) (p.perform w m₁')

theorem Abreast.begin (hR : Abreast R) (h : R m m') (p : Primitive) : R (m.begin p) (m'.begin p) := by
  have hnoted := hR.note ("@ " ++ Numeral.render m.state.ip ++ ": " ++ p.name ++ " ") (hR.begun h)
  simp only [Machine.begin, ← hR.ip h]
  simp only [State.begun, ← hR.ip h] at hnoted
  exact hnoted

theorem Abreast.noteStack (hR : Abreast R) (h : R m m') : R m.noteStack m'.noteStack := by
  have hfold : ∀ (cells : List Cell) (c d : Console), R { m with console := c } { m' with console := d } →
      R { m with console := cells.foldl (fun c cell => c.note (" " ++ cell.render)) c }
        { m' with console := cells.foldl (fun c cell => c.note (" " ++ cell.render)) d } := by
    intro cells
    induction cells with
    | nil => exact fun _ _ h => h
    | cons cell cells ih =>
      intro c d hc
      exact ih _ _ (hR.note (" " ++ cell.render) hc)
  simp only [Machine.noteStack, ← hR.stack h]
  exact hR.note "\n" (hfold _ _ _ h)

/-- Naming the word that has failed, on both sides, does not change the reason. -/
theorem accord_inWord {α : Type} {x y : Action Machine α} (name : String)
    (h : Accord (fun f => E f.kind) R (x m) (y m')) :
    Accord (fun f => E f.kind) R (x.inWord name m) (y.inWord name m') := by
  rw [Action.inWord_apply, Action.inWord_apply]
  generalize x m = r, y m' = r' at h
  cases h with
  | ok a hR => exact .ok a hR
  | error f hR => exact .error _ hR
  | excused r he =>
    apply Accord.excused
    rw [Failure.kind_inWord]
    exact he

/-- A code field is looked up in memory alone. -/
theorem codeField_error_congr {st st' : State} {code : Word} {f : Failure}
    (hm : st.memory = st'.memory) (h : codeField code st = .error f st) :
    codeField code st' = .error f st' := by
  simp only [codeField, Action.bind_apply, fetch_apply, ← hm] at h ⊢
  cases hc : st.memory[code]? with
  | none =>
    rw [hc] at h
    cases h
    rfl
  | some c =>
    simp only [hc] at h ⊢
    cases hp : c.primitive? with
    | none =>
      rw [hp] at h
      cases h
      rfl
    | some p =>
      rw [hp] at h
      cases h

/-- From a primitive to the end of the step, by induction on how often words can still hand over. -/
theorem Abreast.invoke {m₀ : Machine} (hR : Abreast R) (hk : Sustains E R m₀) (hr : Runs m₀ w p m)
    (h : Accord (fun f => E f.kind) R (p.perform w m) (p.perform w' m')) :
    Accord (fun f => E f.kind) R (invoke w p m) (invoke w' p m') := by
  induction hp : m.patience using Nat.strongRecOn generalizing w w' p m m' with
  | ind n ih =>
    rw [invoke_eq, invoke_eq]
    apply accord_inWord
    rw [Action.bind_apply, Action.bind_apply]
    cases hm : p.perform w m with
    | error f n =>
      rw [hm] at h
      generalize p.perform w' m' = r' at h
      cases h with
      | error _ h₁ => exact .error f h₁
      | excused _ he => exact .excused _ he
    | ok next m₁ =>
      rw [hm] at h
      generalize p.perform w' m' = r' at h
      cases h with
      | @ok _ _ m₁' h₁ =>
        cases next with
        | none => exact .ok () h₁
        | some code =>
          change Accord _ R (dispatch code m₁) (dispatch code m₁')
          have hless := patience_of_perform hm
          rcases codeField_apply code m₁.state with ⟨q, hq, -⟩ | ⟨e, hf⟩
          · rw [dispatch_of_field hq, dispatch_of_field (hR.memory h₁ ▸ hq)]
            have hnote := patience_note m₁ ("-> " ++ q.name ++ " ")
            have hnext := hr.next hm hq
            have hperform := hk _ _ _ _ hnext (hR.note ("-> " ++ q.name ++ " ") h₁)
            exact ih _ (by omega) hnext hperform rfl
          · rw [dispatch_of_error hf, dispatch_of_error (codeField_error_congr (hR.memory h₁) hf)]
            exact .error e h₁

/-- The end of a step, for machines that stood at the same cell. -/
theorem Abreast.conclude {m₁ m₁' : Machine} {r r' : EStateM.Result Failure Machine Unit} (hR : Abreast R)
    (name : String) (hip : m₁.state.ip = m₁'.state.ip) (hnip : m₁.state.nip = m₁'.state.nip)
    (h : Accord (fun f => E f.kind) R r r') :
    Accord (fun t => E t.kind) R (conclude m₁ name r) (conclude m₁' name r') := by
  cases h with
  | ok u h => exact .ok u (hR.noteStack h)
  | @error f n n' h =>
    have htrap : bind f m₁.state n.state name = bind f m₁'.state n'.state name := by
      simp only [bind, hip, hnip, hR.stack h, hR.returns h]
    simp only [Machine.conclude]
    rw [htrap]
    exact .error _ (hR.note "\n" h)
  | excused r he =>
    apply Accord.excused
    rw [kind_bind]
    exact he

/-- One step of machines in correspondence. -/
theorem Abreast.step (hR : Abreast R) (hk : Sustains E R m) (h : R m m') :
    Accord (fun t => E t.kind) R (step m) (step m') := by
  have hstate : ∀ f name, bind f m.state m.state name = bind f m'.state m'.state name := by
    intro f name
    simp only [bind, hR.ip h, hR.nip h, hR.stack h, hR.returns h]
  cases hc : m.state.memory[m.state.ip]? with
  | none =>
    have hc' : m'.state.memory[m'.state.ip]? = none := by
      rw [← hR.memory h, ← hR.ip h, hc]
    simp only [Machine.step, hc, hc', hstate]
    rw [hR.ip h]
    exact .error _ h
  | some c =>
    have hc' : m'.state.memory[m'.state.ip]? = some c := by
      rw [← hR.memory h, ← hR.ip h, hc]
    have hsame : resolve m'.state m'.state.ip c = resolve m.state m.state.ip c := by
      simp only [resolve, hR.memory h, hR.ip h]
    cases hr : resolve m.state m.state.ip c with
    | error t =>
      simp only [Machine.step, hc, hc', hsame, hr, hstate]
      exact .error _ h
    | ok wp =>
      obtain ⟨w, p⟩ := wp
      have hfirst : Runs m w p (m.begin p) := .first hc hr
      have hperform := hk _ _ _ _ hfirst (hR.begin h p)
      rw [step_eq_conclude hc hr, step_eq_conclude hc' (hsame.trans hr)]
      exact hR.conclude p.name (hR.ip h) (hR.nip h) (hR.invoke hk hfirst hperform)

end Correspondence

/-- Two machines in the same state, with consoles that correspond. -/
structure Paired (C : Console → Console → Prop) (m m' : Machine) : Prop where
  state : m.state = m'.state
  console : C m.console m'.console

variable {α : Type} {E : Trap.Kind → Prop} {C : Console → Console → Prop} {m m' : Machine}

abbrev Tallies (E : Trap.Kind → Prop) (C : Console → Console → Prop)
    (r r' : EStateM.Result Failure Machine α) : Prop :=
  Accord (fun f => E f.kind) (Paired C) r r'

def Noted (C : Console → Console → Prop) : Prop :=
  ∀ c d piece, C c d → C (c.note piece) (d.note piece)

/-- The correspondence of the consoles is kept when trace text is written, when a word is read and when
text is written to the output. -/
structure Lockstep (E : Trap.Kind → Prop) (C : Console → Console → Prop) : Prop where
  note : Noted C
  word : ∀ m m', Paired C m m' → Tallies E C (Terminal.nextWord m) (Terminal.nextWord m')
  write : ∀ piece m m', Paired C m m' → Tallies E C (Terminal.write piece m) (Terminal.write piece m')

/-- What an action on the state does, it does to both machines. -/
theorem tallies_onState (h : Paired C m m') (x : Action State α) :
    Tallies E C (onState x m) (onState x m') := by
  rw [onState_apply, onState_apply, ← h.state]
  cases x m.state with
  | ok a st => exact .ok a ⟨rfl, h.console⟩
  | error f st => exact .error f ⟨rfl, h.console⟩

theorem tallies_pure (h : Paired C m m') (a : α) :
    Tallies E C ((pure a : Action Machine α) m) ((pure a : Action Machine α) m') :=
  .ok a h

theorem tallies_throw (h : Paired C m m') (f : Failure) :
    Tallies E C ((throw f : Action Machine α) m) ((throw f : Action Machine α) m') :=
  .error f h

theorem tallies_finish {x : Action Machine Unit} (h : Tallies E C (x m) (x m')) :
    Tallies E C (Builtin.perform.finish x m) (Builtin.perform.finish x m') := by
  apply h.bind
  intro u n n' hn
  exact tallies_pure hn none

theorem tallies_stateWord (h : Paired C m m') (x : Action State Unit) :
    Tallies E C (Builtin.perform.onState x m) (Builtin.perform.onState x m') :=
  tallies_finish (tallies_onState h x)

/-- TICK reads a word and looks it up in the state, which is the same. -/
theorem tallies_tick (hl : Lockstep E C) (h : Paired C m m') :
    Tallies E C (Compiler.tick m) (Compiler.tick m') := by
  apply (hl.word m m' h).bind
  intro name n n' hn
  simp only [Action.bind_apply, Action.get_apply, ← hn.state]
  cases n.state.dictionary.find? name with
  | none => exact tallies_throw hn _
  | some e => exact tallies_onState hn _

/-- Every word keeps two machines side by side if three of them do: KEY, WORDS and TRACE, which use the
devices in ways of their own. -/
theorem tallies_perform (hl : Lockstep E C) (h : Paired C m m') (b : Builtin) (w : Word)
    (hkey : b = .key → Tallies E C (Terminal.key m) (Terminal.key m'))
    (hwords : b = .words → Tallies E C (Terminal.words m) (Terminal.words m'))
    (htrace : b = .trace → Tallies E C (Terminal.trace m) (Terminal.trace m')) :
    Tallies E C (b.perform w m) (b.perform w m') := by
  cases b
  case key => exact tallies_finish (hkey rfl)
  case words => exact tallies_finish (hwords rfl)
  case trace => exact tallies_finish (htrace rfl)
  case execute => exact (tallies_onState h _).map some
  case bye => exact tallies_throw h _
  case cr => exact tallies_finish (hl.write _ _ _ h)
  case emit | dot =>
    apply tallies_finish
    apply (tallies_onState h _).bind
    intro a n n' hn
    exact hl.write _ n n' hn
  case word =>
    apply tallies_finish
    apply (hl.word m m' h).bind
    intro name n n' hn
    exact tallies_onState hn _
  case colon =>
    apply tallies_finish
    apply (hl.word m m' h).bind
    intro name n n' hn
    exact tallies_onState hn _
  case interpret =>
    apply (hl.word m m' h).bind
    intro name n n' hn
    exact tallies_onState hn _
  case tick => exact tallies_finish (tallies_tick hl h)
  all_goals exact tallies_stateWord h _

/-- Machines in the same state are kept abreast if trace text keeps their consoles in correspondence. -/
theorem abreast_paired (hn : Noted C) : Abreast (Paired C) where
  ip h := congrArg State.ip h.state
  nip h := congrArg State.nip h.state
  memory h := congrArg State.memory h.state
  stack h := congrArg State.stack h.state
  returns h := congrArg State.returns h.state
  note piece h := ⟨h.state, hn _ _ piece h.console⟩
  begun h := ⟨congrArg State.begun h.state, h.console⟩

/-- The words that the step from `m` runs keep the machine and any that corresponds to it side by side. -/
def KeepsPace (E : Trap.Kind → Prop) (C : Console → Console → Prop) (m : Machine) : Prop :=
  ∀ w b m₁ m₁', Runs m w (.builtin b) m₁ → Paired C m₁ m₁' →
    Tallies E C (b.perform w m₁) (b.perform w m₁')

theorem KeepsPace.primitive {m₁ m₁' : Machine} {w : Word} {p : Primitive} (hk : KeepsPace E C m)
    (hr : Runs m w p m₁) (h : Paired C m₁ m₁') : Tallies E C (p.perform w m₁) (p.perform w m₁') := by
  cases p with
  | host name contract =>
    cases contract with
    | none => exact tallies_throw h _
    | some contract => exact tallies_throw h _
  | builtin b =>
    have hperform := hk w b m₁ m₁' hr h
    simp only [Primitive.perform]
    cases b.contract with
    | withNext => exact hperform
    | ordinary =>
      apply hperform.bind
      intro next n n' hn
      apply (tallies_onState hn advance).bind
      intro u n₁ n₁' hn₁
      exact tallies_pure hn₁ next

/-- What every word of the step does on both sides, the step does. -/
theorem KeepsPace.sustains (hk : KeepsPace E C m) : Sustains E (Paired C) m :=
  fun _ _ _ _ hr h => hk.primitive hr h

theorem tallies_invoke {m₀ : Machine} {w w' : Word} {p : Primitive} (hn : Noted C) (hk : KeepsPace E C m₀)
    (hr : Runs m₀ w p m) (h : Tallies E C (p.perform w m) (p.perform w' m')) :
    Tallies E C (invoke w p m) (invoke w' p m') :=
  (abreast_paired hn).invoke hk.sustains hr h

theorem accord_conclude {m₁ m₁' : Machine} {r r' : EStateM.Result Failure Machine Unit} (name : String)
    (hn : Noted C) (hip : m₁.state.ip = m₁'.state.ip) (hnip : m₁.state.nip = m₁'.state.nip)
    (h : Tallies E C r r') :
    Accord (fun t => E t.kind) (Paired C) (conclude m₁ name r) (conclude m₁' name r') :=
  (abreast_paired hn).conclude name hip hnip h

/-- One step of two machines side by side. -/
theorem accord_step (hn : Noted C) (hk : KeepsPace E C m) (h : Paired C m m') :
    Accord (fun t => E t.kind) (Paired C) (step m) (step m') :=
  (abreast_paired hn).step hk.sustains h

def trap? (m : Machine) : Option Trap :=
  match step m with
  | .ok _ _ => none
  | .error t _ => some t

def after : Nat → Machine → Machine
  | 0, m => m
  | n + 1, m => after n (endState (step m))

/-- One more step. -/
theorem after_succ (n : Nat) (m : Machine) : after (n + 1) m = endState (step (after n m)) := by
  induction n generalizing m with
  | zero => rfl
  | succ n ih =>
    rw [after]
    exact ih _

/-- Steps that all succeed reach the machine after them. -/
theorem reaches_after {n : Nat} (h : ∀ k, k < n → (after k m).trap? = none) : Reaches m (after n m) := by
  induction n generalizing m with
  | zero => exact .refl m
  | succ n ih =>
    have hfirst : m.trap? = none := h 0 (Nat.zero_lt_succ n)
    have hrest : ∀ k, k < n → (after k (endState (step m))).trap? = none :=
      fun k hk => h (k + 1) (Nat.succ_lt_succ hk)
    rw [after]
    unfold trap? at hfirst
    cases hs : step m with
    | ok u m₁ =>
      rw [hs] at hrest
      exact .head hs (ih hrest)
    | error t m₁ =>
      rw [hs] at hfirst
      cases hfirst

section Steps

variable {R : Machine → Machine → Prop} {n : Nat}

/-- Where no failure is excused, both steps end alike. -/
theorem alike_of_accord (h : Accord (fun t => E t.kind) R (step m) (step m'))
    (hE : ∀ t, m.trap? = some t → ¬E t.kind) :
    m.trap? = m'.trap? ∧ R (endState (step m)) (endState (step m')) := by
  unfold trap? at hE ⊢
  generalize Machine.step m = r, Machine.step m' = r' at h hE
  cases h with
  | ok u hR => exact ⟨rfl, hR⟩
  | error t hR => exact ⟨rfl, hR⟩
  | excused r he => exact absurd he (hE _ rfl)

/-- Steps one after another, each of which keeps the machines in correspondence. -/
theorem after_alike (h : R m m') (hs : ∀ k, k < n → ∀ m₁', R (after k m) m₁' →
      (after k m).trap? = m₁'.trap? ∧ R (endState (step (after k m))) (endState (step m₁'))) :
    R (after n m) (after n m') ∧ ∀ k, k < n → (after k m).trap? = (after k m').trap? := by
  induction n with
  | zero => exact ⟨h, fun k hk => absurd hk (Nat.not_lt_zero k)⟩
  | succ n ih =>
    obtain ⟨hafter, htraps⟩ := ih fun k hk => hs k (by omega)
    obtain ⟨htrap, hnext⟩ := hs n (by omega) _ hafter
    rw [after_succ, after_succ]
    refine ⟨hnext, fun k hk => ?_⟩
    rcases Nat.lt_succ_iff_lt_or_eq.mp hk with hk | rfl
    · exact htraps k hk
    · exact htrap

end Steps

/-- Steps one after another, none of which is excused. -/
theorem Paired.after {n : Nat} (hn : Noted C) (h : Paired C m m')
    (hk : ∀ k, k < n → KeepsPace E C (after k m))
    (hE : ∀ k, k < n → ∀ t, (after k m).trap? = some t → ¬E t.kind) :
    Paired C (after n m) (after n m') ∧ ∀ k, k < n → (after k m).trap? = (after k m').trap? := by
  apply after_alike h
  intro k hlt m₁' h₁
  exact alike_of_accord (accord_step hn (hk k hlt) h₁) (hE k hlt)

/-- Steps that succeed, and the ones that follow them in the second machine. -/
theorem Paired.reaches {m₁ : Machine} (hn : Noted C) (hk : ∀ m, KeepsPace E C m) (h : Paired C m m')
    (hr : Reaches m m₁) : ∃ m₁', Reaches m' m₁' ∧ Paired C m₁ m₁' := by
  induction hr generalizing m' with
  | refl m => exact ⟨m', .refl m', h⟩
  | @head m m₂ m₃ hs _ ih =>
    have haccord := accord_step hn (hk m) h
    rw [hs] at haccord
    generalize hs' : Machine.step m' = r' at haccord
    cases haccord with
    | ok u hR =>
      obtain ⟨m₁', hr', hpaired⟩ := ih hR
      exact ⟨m₁', .head hs' hr', hpaired⟩

/-- The primitives that a step runs, and the same ones in the second machine. -/
theorem Paired.runs {m₁ : Machine} {w : Word} {p : Primitive} (hn : Noted C) (hk : KeepsPace E C m)
    (h : Paired C m m') (hr : Runs m w p m₁) : ∃ m₁', Runs m' w p m₁' ∧ Paired C m₁ m₁' := by
  induction hr with
  | @first c w p hc hr =>
    exact ⟨m'.begin p, .first (h.state ▸ hc) (h.state ▸ hr), (abreast_paired hn).begin h p⟩
  | @next w code p q m₁ m₂ hr hp hq ih =>
    obtain ⟨m₁', hr', hpaired⟩ := ih
    have hperform := hk.primitive hr hpaired
    rw [hp] at hperform
    generalize hp' : p.perform w m₁' = r' at hperform
    cases hperform with
    | @ok _ _ m₂' hR => exact ⟨_, hr'.next hp' (hR.state ▸ hq), (abreast_paired hn).note _ hR⟩

def RunAlike (C : Console → Console → Prop) (n : Nat) (m m' : Machine) : Prop :=
  (run n m).1 = (run n m').1 ∧ Paired C (run n m).2 (run n m').2

/-- Runs that begin with steps in accord, none of which is excused. -/
theorem runAlike_succ {n : Nat} (h : Accord (fun _ => False) (Paired C) (step m) (step m'))
    (hrest : ∀ m₁ m₁', Paired C m₁ m₁' → RunAlike C n m₁ m₁') : RunAlike C (n + 1) m m' := by
  unfold RunAlike
  rw [run, run]
  generalize step m = r, step m' = r' at h
  cases h with
  | ok u hR => exact hrest _ _ hR
  | error t hR =>
    dsimp only
    split <;> exact ⟨rfl, hR⟩
  | excused r he => exact he.elim

/-- Machines on which every step keeps pace run alike. -/
theorem Paired.runAlike (hn : Noted C) (hk : ∀ m, KeepsPace (fun _ => False) C m) (h : Paired C m m')
    (n : Nat) : RunAlike C n m m' := by
  induction n generalizing m m' with
  | zero => exact ⟨rfl, h⟩
  | succ n ih =>
    apply runAlike_succ
    · exact accord_step hn (hk m) h
    · exact fun m₁ m₁' h₁ => ih h₁

end Machine

namespace Terminal

def take {α : Type} (next : Source → Except Ending α × Source) : Action (Option Source) α
  | none => .error (failureOf .endOfInput) none
  | some source =>
    match next source with
    | (.ok a, rest) => .ok a (some rest)
    | (.error ending, rest) => .error (failureOf ending) (some rest)

/-- Reading depends on the input of the console alone. -/
theorem read_apply {α : Type} (next : Source → Except Ending α × Source) (c : Console) :
    read next c = match take next c.input with
      | .ok a i => .ok a { c with input := i }
      | .error f i => .error f { c with input := i } := by
  simp only [read, Action.bind_apply, Action.get_apply]
  cases hi : c.input with
  | none =>
    obtain ⟨input, output, trace, tracing⟩ := c
    cases hi
    rfl
  | some source =>
    simp only [take]
    obtain ⟨result, rest⟩ := next source
    cases result <;> rfl

/-- The same is read from the same input. -/
theorem accord_take {α : Type} {E : Failure → Prop} (next : Source → Except Ending α × Source)
    (i j : Option Source) (h : i = j) : Accord E Eq (take next i) (take next j) := by
  subst h
  cases take next i with
  | ok a k => exact .ok a rfl
  | error f k => exact .error f rfl

end Terminal

namespace Console

/-- The same output and the same tracing, with inputs that correspond. What a trace sink of its own has
received may differ. -/
structure Fed (S : Option Source → Option Source → Prop) (c d : Console) : Prop where
  input : S c.input d.input
  output : c.output = d.output
  tracing : c.tracing = d.tracing
  trace : c.trace.isSome = d.trace.isSome

theorem note_tracing (c : Console) (piece : String) : (c.note piece).tracing = c.tracing := by
  unfold note
  split
  · split <;> rfl
  · rfl

theorem note_trace (c : Console) (piece : String) : (c.note piece).trace.isSome = c.trace.isSome := by
  unfold note
  split
  · split
    · rename_i hs
      rw [hs]
      rfl
    · rfl
  · rfl

theorem keepsTraceApart_note {c : Console} {piece : String} :
    (c.note piece).KeepsTraceApart ↔ c.KeepsTraceApart := by
  rw [KeepsTraceApart, KeepsTraceApart, note_tracing, note_trace]

end Console

namespace Machine

variable {α : Type} {E : Trap.Kind → Prop} {C : Console → Console → Prop} {m m' : Machine}
  {S : Option Source → Option Source → Prop}

/-- Reading keeps consoles in correspondence if it does so with their inputs. -/
theorem tallies_read {next : Source → Except Ending α × Source} (h : Paired C m m')
    (hi : ∀ c d, C c d → S c.input d.input)
    (hu : ∀ c d i j, C c d → S i j → C { c with input := i } { d with input := j })
    (hS : ∀ i j, S i j → Accord (fun f => E f.kind) S (Terminal.take next i) (Terminal.take next j)) :
    Tallies E C (onConsole (Terminal.read next) m) (onConsole (Terminal.read next) m') := by
  have haccord := hS _ _ (hi _ _ h.console)
  rw [onConsole_apply, onConsole_apply, Terminal.read_apply, Terminal.read_apply]
  generalize Terminal.take next m.console.input = r, Terminal.take next m'.console.input = r' at haccord
  cases haccord with
  | ok a hR => exact .ok a ⟨h.state, hu _ _ _ _ h.console hR⟩
  | error f hR => exact .error f ⟨h.state, hu _ _ _ _ h.console hR⟩
  | excused r he => exact .excused _ he

/-- KEY reads a character and puts it on the stack. -/
theorem tallies_key (hr : Tallies E C (onConsole (Terminal.read Source.nextChar) m)
    (onConsole (Terminal.read Source.nextChar) m')) :
    Tallies E C (Terminal.key m) (Terminal.key m') := by
  apply hr.bind
  intro c n n' hn
  exact tallies_onState hn _

/-- Outputs that are the same sink both take the piece, or neither does. -/
theorem tallies_write {piece : String} (h : Paired C m m') (ho : m.console.output = m'.console.output)
    (hu : ∀ o, C { m.console with output := o } { m'.console with output := o }) :
    Tallies E C (Terminal.write piece m) (Terminal.write piece m') := by
  simp only [Terminal.write, onConsole_apply, Action.bind_apply, Action.get_apply, Action.set_apply, ← ho]
  obtain ⟨refused, o⟩ := m.console.output.write piece
  cases refused with
  | none => exact .ok () ⟨h.state, hu o⟩
  | some reason => exact .error _ ⟨h.state, hu o⟩

/-- WORDS finds the same chain in both machines and offers the same pieces. -/
theorem tallies_words (h : Paired C m m')
    (ho : ∀ entries, m.state.chain = (entries, none) →
      C { m.console with output := m.console.output.offerAll (Terminal.listing entries ++ ["\n"]) }
        { m'.console with output := m'.console.output.offerAll (Terminal.listing entries ++ ["\n"]) }) :
    Tallies E C (Terminal.words m) (Terminal.words m') := by
  cases hc : m.state.chain with
  | mk entries trap =>
    have hc' : m'.state.chain = (entries, trap) := h.state ▸ hc
    cases trap with
    | none =>
      rw [words_apply hc, words_apply hc']
      exact .ok () ⟨h.state, ho entries hc⟩
    | some t =>
      simp only [Terminal.words, Action.bind_apply, Action.get_apply, hc, hc']
      exact tallies_throw h _

/-- TRACE with a flag on the stack. -/
theorem trace_apply {flag : Cell} {s : Stack Cell} (h : m.state.stack = flag :: s) :
    Terminal.trace m = .ok () {
      state := { m.state with stack := s }
      console := { m.console with tracing := !flag.isFalse } } := by
  simp only [Terminal.trace, Action.bind_apply, onState_apply, onStack_apply, h, Operand.cell_cons,
    Action.modify_apply]

/-- TRACE takes its flag from the state, which is the same. -/
theorem tallies_trace (h : Paired C m m')
    (ht : ∀ flag s, m.state.stack = flag :: s →
      C { m.console with tracing := !flag.isFalse } { m'.console with tracing := !flag.isFalse }) :
    Tallies E C (Terminal.trace m) (Terminal.trace m') := by
  cases hs : m.state.stack with
  | nil =>
    have hs' : m'.state.stack = [] := h.state ▸ hs
    simp only [Terminal.trace, Action.bind_apply, onState_apply, onStack_apply, hs', Operand.cell_nil,
      h.state]
    exact .error _ ⟨rfl, h.console⟩
  | cons flag s =>
    have hs' : m'.state.stack = flag :: s := h.state ▸ hs
    rw [trace_apply hs, trace_apply hs', h.state]
    exact .ok () ⟨rfl, ht flag s hs⟩

section Fed

theorem fed_input {T : Option Source → Option Source → Prop} (c d : Console) (i j : Option Source)
    (h : c.Fed S d) (hT : T i j) : Console.Fed T { c with input := i } { d with input := j } :=
  ⟨hT, h.output, h.tracing, h.trace⟩

/-- Trace text leaves the inputs alone. -/
theorem noted_fed : Noted (Console.Fed S) := by
  intro c d piece h
  refine ⟨?_, ?_, ?_, ?_⟩
  · rw [Console.note_input, Console.note_input]
    exact h.input
  · have htrace := h.trace
    simp only [Console.note, ← h.tracing, ← h.output]
    cases c.tracing with
    | false => exact h.output
    | true => cases hc : c.trace <;> cases hd : d.trace <;> simp_all
  · rw [Console.note_tracing, Console.note_tracing]
    exact h.tracing
  · rw [Console.note_trace, Console.note_trace]
    exact h.trace

/-- Trace text that is kept apart from the output makes no difference. -/
theorem fed_note_left {c d : Console} (h : c.Fed S d) (hc : c.KeepsTraceApart) (piece : String) :
    (c.note piece).Fed S d := by
  refine ⟨?_, ?_, ?_, ?_⟩
  · rw [Console.note_input]
    exact h.input
  · rw [hc.note_output]
    exact h.output
  · rw [Console.note_tracing]
    exact h.tracing
  · rw [Console.note_trace]
    exact h.trace

/-- The same output takes the same text, or refuses it for the same reason. -/
theorem tallies_write_fed (piece : String) (h : Paired (Console.Fed S) m m') :
    Tallies E (Console.Fed S) (Terminal.write piece m) (Terminal.write piece m') := by
  have hfed := h.console
  exact tallies_write h hfed.output fun _ => ⟨hfed.input, rfl, hfed.tracing, hfed.trace⟩

theorem tallies_words_fed (h : Paired (Console.Fed S) m m') :
    Tallies E (Console.Fed S) (Terminal.words m) (Terminal.words m') := by
  apply tallies_words h
  intro entries _
  have hfed := h.console
  rw [← hfed.output]
  exact ⟨hfed.input, rfl, hfed.tracing, hfed.trace⟩

theorem tallies_trace_fed (h : Paired (Console.Fed S) m m') :
    Tallies E (Console.Fed S) (Terminal.trace m) (Terminal.trace m') := by
  apply tallies_trace h
  intro flag s _
  have hfed := h.console
  exact ⟨hfed.input, hfed.output, rfl, hfed.trace⟩

/-- Machines that are fed by inputs from which the same words are read stay side by side, as long as they
read by words. -/
theorem lockstep_fed (hS : ∀ i j, S i j →
    Accord (fun f => E f.kind) S (Terminal.take Source.nextWord i) (Terminal.take Source.nextWord j)) :
    Lockstep E (Console.Fed S) where
  note := noted_fed
  word _ _ h := tallies_read h (fun _ _ h => h.input) fed_input hS
  write piece _ _ h := tallies_write_fed piece h

/-- Machines with corresponding inputs keep pace if words are read alike, and characters where KEY is run.
-/
theorem keepsPace_fed (hS : ∀ i j, S i j →
    Accord (fun f => E f.kind) S (Terminal.take Source.nextWord i) (Terminal.take Source.nextWord j))
    (hkey : ∀ w m₁ m₁', Runs m w (.builtin .key) m₁ → Paired (Console.Fed S) m₁ m₁' →
      Tallies E (Console.Fed S) (Terminal.key m₁) (Terminal.key m₁')) :
    KeepsPace E (Console.Fed S) m := by
  intro w b m₁ m₁' hr h
  apply tallies_perform (lockstep_fed hS) h
  · rintro rfl
    exact hkey w m₁ m₁' hr h
  · exact fun _ => tallies_words_fed h
  · exact fun _ => tallies_trace_fed h

/-- Machines whose inputs give the same words and the same characters. -/
theorem keepsPace_fed_of_reads (hS : ∀ i j, S i j →
    Accord (fun f => E f.kind) S (Terminal.take Source.nextWord i) (Terminal.take Source.nextWord j))
    (hc : ∀ i j, S i j →
      Accord (fun f => E f.kind) S (Terminal.take Source.nextChar i) (Terminal.take Source.nextChar j)) :
    KeepsPace E (Console.Fed S) m := by
  apply keepsPace_fed hS
  intro w m₁ m₁' _ h
  apply tallies_key
  exact tallies_read h (fun _ _ h => h.input) fed_input hc

end Fed

end Machine

end ForthMachine
