import ForthMachine.Proofs.Machine.Progress
import ForthMachine.Proofs.Words.Contents

namespace ForthMachine

open State

namespace Machine

/-- The primitives that the step from a machine runs: each with its code field and with the machine that
it finds. -/
inductive Runs (m : Machine) : Word → Primitive → Machine → Prop where
  | first {c : Cell} {w : Word} {p : Primitive} : m.state.memory[m.state.ip]? = some c →
      resolve m.state m.state.ip c = .ok (w, p) → Runs m w p (m.begin p)
  | next {w code : Word} {p q : Primitive} {m₁ m₂ : Machine} : Runs m w p m₁ →
      p.perform w m₁ = .ok (some code) m₂ → m₂.state.memory[code]? = some (.prim (some q)) →
      Runs m code q { m₂ with console := m₂.console.note ("-> " ++ q.name ++ " ") }

/-- What a step has done to memory and dictionary when it ends: it has built definitions, or a word that
it ran has stored. -/
def Settled (m m' : Machine) : Prop :=
  (∃ k, k ≤ 4 ∧ Amends m.state.contents k m'.state.contents) ∨
    ∃ w b m₁, Runs m w (.builtin b) m₁ ∧ m₁.state.contents = m.state.contents ∧
      Overwrites (b.writes m₁.state) m₁.state m'.state

theorem settled_of_contents {m m' : Machine} (h : m'.state.contents = m.state.contents) :
    Settled m m' :=
  .inl ⟨0, Nat.zero_le 4, h ▸ .refl _⟩

theorem Settled.congr {m m' m'' : Machine} (h : Settled m m') (hc : m''.state.contents = m'.state.contents) :
    Settled m m'' := by
  obtain ⟨hm, hd⟩ := Prod.mk.inj hc
  rcases h with ⟨k, hk, ha⟩ | ⟨w, b, m₁, hr, hs, ho⟩
  · exact .inl ⟨k, hk, hc ▸ ha⟩
  · refine .inr ⟨w, b, m₁, hr, hs, hd.trans ho.dictionary, fun a ha => ?_⟩
    rw [hm]
    exact ho.memory a ha

end Machine

namespace Builtin

open Machine

theorem finish_ne_some {x : Action Machine Unit} {code : Word} {m m' : Machine} :
    perform.finish x m ≠ .ok (some code) m' := by
  rw [perform_finish_apply]
  cases x m <;> simp

/-- Reading a word leaves the state alone. -/
theorem state_of_nextWord {m m' : Machine} {name : String} (h : Terminal.nextWord m = .ok name m') :
    m'.state = m.state := by
  rw [Terminal.nextWord, onConsole] at h
  obtain ⟨c, -, rfl⟩ := Action.ok_of_zoom h
  rfl

/-- INTERPRET hands over to a visible name without having done anything to the state. -/
theorem meaning_some {name : String} {code : Word} {st st' : State}
    (h : Compiler.meaning name st = .ok (some code) st') : st' = st := by
  cases hf : st.dictionary.find? name with
  | some e =>
    simp only [Compiler.meaning, Action.bind_apply, Action.get_apply, hf] at h
    split at h
    · cases h
      rfl
    · cases hc : State.comma (.ref e.code) st <;>
        simp only [Action.bind_apply, hc, advance_apply, Action.pure_apply] at h <;> cases h
  | none =>
    cases hk : Numeral.decimal? name.toList with
    | none =>
      simp only [Compiler.meaning, Action.bind_apply, Action.get_apply, hf, hk] at h
      cases h
    | some k =>
      simp only [Compiler.meaning, Action.bind_apply, Action.get_apply, hf, hk] at h
      split at h
      · cases hc : Compiler.compileLiteral (.int k) st <;>
          simp only [Action.bind_apply, hc, advance_apply, Action.pure_apply] at h <;> cases h
      · simp only [Action.bind_apply, push_apply, advance_apply, Action.pure_apply] at h
        cases h

/-- Two words hand over: EXECUTE, which has taken a cell from the stack by then, and INTERPRET, which has
done nothing to the state. -/
theorem state_of_handOver {b : Builtin} {w code : Word} {m m' : Machine}
    (h : b.perform w m = .ok (some code) m') :
    (b = .execute ∧ ∃ c s, m.state.stack = c :: s ∧ m'.state = { m.state with stack := s }) ∨
      (b = .interpret ∧ m'.state = m.state) := by
  cases b
  case execute =>
    refine .inl ⟨rfl, ?_⟩
    simp only [perform, Action.map_apply, onState_apply, onStack_apply] at h
    cases hs : m.state.stack with
    | nil =>
      rw [hs, Operand.token_nil] at h
      cases h
    | cons c s =>
      rw [hs, Operand.token_cons] at h
      cases ht : c.token? with
      | none =>
        rw [ht] at h
        cases h
      | some a =>
        rw [ht] at h
        cases h
        exact ⟨c, s, rfl, rfl⟩
  case interpret =>
    refine .inr ⟨rfl, ?_⟩
    simp only [perform, Compiler.interpret, Action.bind_apply] at h
    cases hw : Terminal.nextWord m with
    | error e m₁ =>
      rw [hw] at h
      cases h
    | ok name m₁ =>
      have hm : m₁.state = m.state := state_of_nextWord hw
      rw [hw] at h
      simp only [onState_apply] at h
      cases hn : Compiler.meaning name m₁.state with
      | error e st =>
        rw [hn] at h
        cases h
      | ok code' st =>
        rw [hn] at h
        cases h
        rw [meaning_some hn]
        exact hm
  case bye => cases h
  all_goals exact absurd h finish_ne_some

/-- A word that hands over leaves memory and dictionary alone. -/
theorem contents_of_handOver {b : Builtin} {w code : Word} {m m' : Machine}
    (h : b.perform w m = .ok (some code) m') : m'.state.contents = m.state.contents := by
  rcases state_of_handOver h with ⟨-, c, s, -, hm⟩ | ⟨-, hm⟩
  · rw [hm]
    rfl
  · rw [hm]

end Builtin

namespace Machine

variable {m m₁ m₂ : Machine} {w code : Word} {p : Primitive}

/-- A primitive runs its built-in word and then, where that is its contract, goes on to the next cell. -/
theorem perform_builtin (b : Builtin) (w : Word) (m : Machine) :
    ∃ r, b.perform w m = r ∧
      (endState ((Primitive.builtin b).perform w m)).state.contents = (endState r).state.contents ∧
      ∀ next m', (Primitive.builtin b).perform w m = .ok next m' →
        ∃ m'', r = .ok next m'' ∧ m'.state.contents = m''.state.contents := by
  rw [Primitive.perform]
  cases b.contract with
  | withNext => exact ⟨_, rfl, rfl, fun next m' h => ⟨m', h, rfl⟩⟩
  | ordinary =>
    refine ⟨_, rfl, ?_, ?_⟩
    all_goals
      simp only [Action.bind_apply, onState_apply, advance_apply, Action.pure_apply]
      cases b.perform w m <;> simp [State.contents]

/-- The last primitive of a step builds definitions, or it stores. -/
theorem settled_perform (hr : Runs m w p m₁) (hc : m₁.state.contents = m.state.contents) :
    Settled m (endState (p.perform w m₁)) := by
  cases p with
  | host name contract =>
    refine settled_of_contents (Eq.trans ?_ hc)
    cases contract <;> rfl
  | builtin b =>
    obtain ⟨r, hrun, hend, -⟩ := perform_builtin b w m₁
    subst hrun
    refine Settled.congr ?_ hend
    cases hb : b.isStore with
    | true => exact .inr ⟨w, b, m₁, hr, hc, Builtin.overwrites_perform hb w m₁⟩
    | false =>
      rw [Settled, ← hc]
      exact .inl (Builtin.builds_perform hb w m₁)

/-- A word that hands over has left memory and dictionary alone. -/
theorem contents_of_perform (h : p.perform w m₁ = .ok (some code) m₂) :
    m₂.state.contents = m₁.state.contents := by
  cases p with
  | host name contract => cases contract <;> cases h
  | builtin b =>
    obtain ⟨r, hrun, -, hnext⟩ := perform_builtin b w m₁
    obtain ⟨m', hr, hm'⟩ := hnext _ _ h
    exact hm'.trans (Builtin.contents_of_handOver (hrun.trans hr))

theorem endState_inWord {α : Type} (name : String) (x : Action Machine α) (m : Machine) :
    endState (x.inWord name m) = endState (x m) := by
  rw [Action.inWord_apply]
  cases x m <;> rfl

/-- A code field either holds a primitive or cannot be run. -/
theorem codeField_apply (code : Word) (st : State) :
    (∃ q, st.memory[code]? = some (.prim (some q)) ∧ codeField code st = .ok q st) ∨
      ∃ e, codeField code st = .error e st := by
  simp only [codeField, Action.bind_apply, fetch_apply]
  cases hc : st.memory[code]? with
  | none => exact .inr ⟨_, rfl⟩
  | some c =>
    cases c with
    | prim p =>
      cases p with
      | none => exact .inr ⟨_, rfl⟩
      | some q => exact .inl ⟨q, rfl, rfl⟩
    | _ => exact .inr ⟨_, rfl⟩

/-- The rest of a step after a word has handed over, by induction on how often words still hand over. -/
theorem settled_handOver (fuel : Nat) (hr : Runs m w p m₁) (hc : m₁.state.contents = m.state.contents)
    (hp : p.perform w m₁ = .ok (some code) m₂) : Settled m (endState (handOver fuel code m₂)) := by
  have hc₂ : m₂.state.contents = m.state.contents := (contents_of_perform hp).trans hc
  induction fuel generalizing w p m₁ code m₂ with
  | zero => exact settled_of_contents hc₂
  | succ fuel ih =>
    rw [handOver, Action.bind_apply, onState_apply]
    rcases codeField_apply code m₂.state with ⟨q, hq, hf⟩ | ⟨e, he⟩
    · have hrun := hr.next hp hq
      simp only [hf, Action.bind_apply, note_apply, endState_inWord]
      cases hperform : q.perform code
          { m₂ with console := m₂.console.note ("-> " ++ q.name ++ " ") } with
      | error f m₃ =>
        have hs := settled_perform hrun hc₂
        rwa [hperform] at hs
      | ok next m₃ =>
        cases next with
        | none =>
          have hs := settled_perform hrun hc₂
          rwa [hperform] at hs
        | some next => exact ih hrun hc₂ hperform ((contents_of_perform hperform).trans hc₂)
    · rw [he]
      exact settled_of_contents hc₂

/-- A step builds definitions or stores, whether it succeeds or fails. -/
theorem settled_step (m : Machine) : Settled m (endState (step m)) := by
  cases hc : m.state.memory[m.state.ip]? with
  | none =>
    rw [step, hc]
    exact settled_of_contents rfl
  | some c =>
    cases hr : resolve m.state m.state.ip c with
    | error t =>
      rw [step, hc]
      simp only [hr]
      exact settled_of_contents rfl
    | ok wp =>
      obtain ⟨w, p⟩ := wp
      have hrun : Runs m w p (m.begin p) := .first hc hr
      have hinvoke : Settled m (endState (invoke w p (m.begin p))) := by
        rw [invoke, endState_inWord, Action.bind_apply]
        cases hperform : p.perform w (m.begin p) with
        | error f m₁ =>
          have hs := settled_perform hrun rfl
          rwa [hperform] at hs
        | ok next m₁ =>
          cases next with
          | none =>
            have hs := settled_perform hrun rfl
            rwa [hperform] at hs
          | some next => exact settled_handOver _ hrun rfl hperform
      rw [step_eq_of_resolve hc hr]
      cases he : invoke w p (m.begin p) <;> rw [he] at hinvoke <;> exact hinvoke

end Machine

end ForthMachine
