import ForthMachine.Proofs.Machine.Turn
import ForthMachine.Proofs.Words.Failure

/-!
The trail of a step: the words that a step runs one inside the other, in their order. Each of them but the
last has handed over to the next one. A step that fails does so before anything has run, in the last word
of its trail, or where that word hands over to a cell that cannot be run; there is no other way.
-/

namespace ForthMachine

open State

def State.begun (st : State) : State := { st with nip := st.ip + 1 }

/-- On a machine whose next cell comes after the instruction pointer, to begin a step changes nothing. -/
theorem State.begun_of_nip {st : State} (h : st.nip = st.ip + 1) : st.begun = st := by
  rw [begun, ← h]

namespace Machine

theorem kind_bind (f : Failure) (before after : State) (name : String) :
    (bind f before after name).kind = f.kind := by
  cases f with
  | host message =>
    by_cases hn : name = "" <;> simp [bind, Failure.kind, Failure.kind?, Trap.inWord]
  | trap t =>
    by_cases hw : t.word = "" <;> simp [bind, Trap.inWord, hw]

/-- The step from `m` runs the words `earlier`, the last one first, each of which hands over to the next.
Then it comes to the primitive `p`, whose code field is at `w` and which finds the machine `m₁`. -/
inductive Trail (m : Machine) : List Builtin → Word → Primitive → Machine → Prop where
  | first {c : Cell} {w : Word} {p : Primitive} : m.state.memory[m.state.ip]? = some c →
      resolve m.state m.state.ip c = .ok (w, p) → Trail m [] w p (m.begin p)
  | next {earlier : List Builtin} {w code : Word} {b : Builtin} {q : Primitive} {m₁ m₂ : Machine} :
      Trail m earlier w (.builtin b) m₁ → (Primitive.builtin b).perform w m₁ = .ok (some code) m₂ →
      m₂.state.memory[code]? = some (.prim (some q)) →
      Trail m (b :: earlier) code q { m₂ with console := m₂.console.note ("-> " ++ q.name ++ " ") }

inductive Stops (m : Machine) : Trap.Kind → State → Prop where
  | unwritten : m.state.memory[m.state.ip]? = none → Stops m .unwrittenAddress m.state
  | unresolved {c : Cell} {t : Trap} : m.state.memory[m.state.ip]? = some c →
      resolve m.state m.state.ip c = .error t → Stops m t.kind m.state
  | raised {earlier : List Builtin} {w : Word} {p : Primitive} {m₁ m₂ : Machine} {f : Failure} :
      Trail m earlier w p m₁ → p.perform w m₁ = .error f m₂ → Stops m f.kind m₂.state
  | misdirected {earlier : List Builtin} {w code : Word} {b : Builtin} {m₁ m₂ : Machine} {f : Failure} :
      Trail m earlier w (.builtin b) m₁ → (Primitive.builtin b).perform w m₁ = .ok (some code) m₂ →
      codeField code m₂.state = .error f m₂.state → Stops m f.kind m₂.state

variable {m m' m₁ m₂ m₃ : Machine} {w code : Word} {p : Primitive} {b : Builtin} {f : Failure}
  {earlier earlier' : List Builtin}

/-- Only built-in words hand over. -/
theorem builtin_of_handOver (h : p.perform w m₁ = .ok (some code) m₂) : ∃ b, p = .builtin b := by
  cases p with
  | builtin b => exact ⟨b, rfl⟩
  | host name contract => cases contract <;> cases h

/-- The primitive that ends a trail either fails by itself or hands over once more. -/
theorem stops_handOver (fuel : Nat) (ht : Trail m earlier w (.builtin b) m₁)
    (hp : (Primitive.builtin b).perform w m₁ = .ok (some code) m₂)
    (h : handOver fuel code m₂ = .error f m₃) : Stops m f.kind m₃.state := by
  induction fuel generalizing earlier w b m₁ code m₂ f m₃ with
  | zero => cases h
  | succ fuel ih =>
    rw [handOver, Action.bind_apply, onState_apply] at h
    rcases codeField_apply code m₂.state with ⟨q, hq, hfield⟩ | ⟨e, hfield⟩
    · rw [hfield] at h
      simp only [Action.bind_apply, note_apply, Action.inWord_apply] at h
      have hnext := ht.next hp hq
      cases hq' : q.perform code { m₂ with console := m₂.console.note ("-> " ++ q.name ++ " ") } with
      | error f' m₄ =>
        rw [hq'] at h
        cases h
        rw [Failure.kind_inWord]
        exact .raised hnext hq'
      | ok next m₄ =>
        rw [hq'] at h
        cases next with
        | none => cases h
        | some next =>
          obtain ⟨b', rfl⟩ := builtin_of_handOver hq'
          cases hrest : handOver fuel next m₄ with
          | ok u m₅ =>
            simp only [hrest] at h
            cases h
          | error f' m₅ =>
            simp only [hrest] at h
            cases h
            rw [Failure.kind_inWord]
            exact ih hnext hq' hrest
    · rw [hfield] at h
      cases h
      exact .misdirected ht hp hfield

theorem stops_invoke {c : Cell} (hc : m.state.memory[m.state.ip]? = some c)
    (hr : resolve m.state m.state.ip c = .ok (w, p)) (h : invoke w p (m.begin p) = .error f m₂) :
    Stops m f.kind m₂.state := by
  have ht : Trail m [] w p (m.begin p) := .first hc hr
  simp only [invoke, Action.inWord_apply, Action.bind_apply] at h
  cases hp : p.perform w (m.begin p) with
  | error f' m₁ =>
    rw [hp] at h
    cases h
    rw [Failure.kind_inWord]
    exact .raised ht hp
  | ok next m₁ =>
    rw [hp] at h
    cases next with
    | none => cases h
    | some next =>
      obtain ⟨b, rfl⟩ := builtin_of_handOver hp
      simp only [Action.bind_apply, Action.get_apply] at h
      cases hrest : handOver (m₁.patience + 1) next m₁ with
      | ok u m₃ =>
        simp only [hrest] at h
        cases h
      | error f' m₃ =>
        simp only [hrest] at h
        cases h
        rw [Failure.kind_inWord]
        exact stops_handOver _ ht hp hrest

/-- How a step can fail. -/
theorem stops_of_step {t : Trap} (h : step m = .error t m') : Stops m t.kind m'.state := by
  cases hc : m.state.memory[m.state.ip]? with
  | none =>
    simp only [step, hc] at h
    cases h
    rw [kind_bind]
    exact .unwritten hc
  | some c =>
    cases hr : resolve m.state m.state.ip c with
    | error t' =>
      simp only [step, hc, hr] at h
      cases h
      rw [kind_bind]
      exact .unresolved hc hr
    | ok wp =>
      obtain ⟨w, p⟩ := wp
      rw [step_eq_of_resolve hc hr] at h
      cases hi : invoke w p (m.begin p) with
      | ok u m₁ =>
        rw [hi] at h
        cases h
      | error f m₁ =>
        rw [hi] at h
        cases h
        rw [kind_bind]
        have hstops := stops_invoke hc hr hi
        exact hstops

/-- A word that is followed by a step to the next cell hands over to no word. -/
theorem perform_handOver (h : (Primitive.builtin b).perform w m₁ = .ok (some code) m₂) :
    b.perform w m₁ = .ok (some code) m₂ := by
  rw [Primitive.perform] at h
  cases hc : b.contract with
  | withNext =>
    rw [hc] at h
    exact h
  | ordinary =>
    rw [hc] at h
    simp only [Action.bind_apply] at h
    cases hb : b.perform w m₁ with
    | error f m₃ =>
      rw [hb] at h
      cases h
    | ok next m₃ =>
      rw [hb] at h
      cases h
      rcases Builtin.state_of_handOver hb with ⟨rfl, -⟩ | ⟨rfl, -⟩ <;> cases hc

theorem perform_error (h : (Primitive.builtin b).perform w m₁ = .error f m₂) :
    b.perform w m₁ = .error f m₂ := by
  rw [Primitive.perform] at h
  cases hc : b.contract with
  | withNext =>
    rw [hc] at h
    exact h
  | ordinary =>
    rw [hc] at h
    refine error_of_bind_succeeds (fun next => ?_) h
    exact (succeeds_onState succeeds_advance).bind fun _ => succeeds_pure _

/-- Up to the last word of a trail nothing has happened to the state, but that every EXECUTE has taken a
cell from the stack. -/
theorem Trail.state (h : Trail m earlier w p m₁) : earlier.count .execute ≤ m.state.stack.length ∧
    m₁.state = m.state.begun.taking (earlier.count .execute) := by
  induction h with
  | first _ _ => exact ⟨Nat.zero_le _, rfl⟩
  | @next earlier w code b q m₁ m₂ _ hp _ ih =>
    obtain ⟨hle, hst⟩ := ih
    rcases Builtin.state_of_handOver (perform_handOver hp) with ⟨rfl, c, s, hs, hst'⟩ | ⟨rfl, hst'⟩
    · rw [List.count_cons_self]
      have hdrop : m.state.stack.drop (earlier.count .execute) = c :: s := by
        rw [← hs, hst]
        rfl
      have hlt : earlier.count .execute < m.state.stack.length := by
        apply Nat.lt_of_not_le
        intro hge
        rw [List.drop_eq_nil_of_le hge] at hdrop
        cases hdrop
      refine ⟨hlt, ?_⟩
      rw [hst', hst, ← State.taking_taking]
      simp only [State.taking, State.begun, hdrop, List.drop_succ_cons, List.drop_zero]
    · rw [List.count_cons_of_ne (by decide)]
      exact ⟨hle, hst'.trans hst⟩

/-- Trails of the same length are the same. -/
theorem Trail.unique {w' : Word} {p' : Primitive} (h : Trail m earlier w p m₁)
    (h' : Trail m earlier' w' p' m₂) (hl : earlier.length = earlier'.length) :
    earlier = earlier' ∧ w = w' ∧ p = p' ∧ m₁ = m₂ := by
  induction h generalizing earlier' w' p' m₂ with
  | first hc hr =>
    cases h' with
    | first hc' hr' =>
      obtain rfl := Option.some.inj (hc.symm.trans hc')
      obtain ⟨rfl, rfl⟩ := Prod.mk.inj (Except.ok.inj (hr.symm.trans hr'))
      exact ⟨rfl, rfl, rfl, rfl⟩
    | next _ _ _ => cases hl
  | next _ hp hq ih =>
    cases h' with
    | first _ _ => cases hl
    | next ht' hp' hq' =>
      obtain ⟨rfl, rfl, hb, rfl⟩ := ih ht' (Nat.succ.inj hl)
      obtain rfl := Primitive.builtin.inj hb
      rw [hp] at hp'
      cases hp'
      rw [hq] at hq'
      cases hq'
      exact ⟨rfl, rfl, rfl, rfl⟩

/-- A primitive hands over to no other one: it fails, it ends the step, or it hands over to a cell that
holds no primitive. -/
def Keeps (w : Word) (p : Primitive) (m : Machine) : Prop :=
  ∀ code m', p.perform w m = .ok (some code) m' → ∀ q, m'.state.memory[code]? ≠ some (.prim (some q))

/-- A primitive that fails hands over to no other one. -/
theorem keeps_of_error (hp : p.perform w m₁ = .error f m₃) : Keeps w p m₁ :=
  fun _ _ hok => nomatch hp.symm.trans hok

/-- No trail is longer than one whose last primitive hands over to no other. -/
theorem Trail.length_le {w' : Word} {p' : Primitive} (h : Trail m earlier w p m₁) (hk : Keeps w p m₁)
    (h' : Trail m earlier' w' p' m₂) : earlier'.length ≤ earlier.length := by
  induction h' with
  | first _ _ => exact Nat.zero_le _
  | next ht' hp' hq' ih =>
    -- a trail of the same length would end in that primitive, and it would hand over after all
    refine Nat.lt_of_le_of_ne ih fun hl => ?_
    obtain ⟨-, rfl, rfl, rfl⟩ := h.unique ht' hl.symm
    exact hk _ _ hp' _ hq'

/-- There is one trail whose last primitive hands over to no other. -/
theorem Trail.unique_of_keeps {w' : Word} {p' : Primitive} (h : Trail m earlier w p m₁)
    (hk : Keeps w p m₁) (h' : Trail m earlier' w' p' m₂) (hk' : Keeps w' p' m₂) :
    earlier = earlier' ∧ w = w' ∧ p = p' ∧ m₁ = m₂ := by
  apply h.unique h'
  exact Nat.le_antisymm (h'.length_le hk' h) (h.length_le hk h')

/-- There is one trail that ends in a failure. -/
theorem Trail.unique_of_error {w' : Word} {p' : Primitive} {f' : Failure} {m₄ : Machine}
    (h : Trail m earlier w p m₁) (hp : p.perform w m₁ = .error f m₃) (h' : Trail m earlier' w' p' m₂)
    (hp' : p'.perform w' m₂ = .error f' m₄) : earlier = earlier' ∧ w = w' ∧ p = p' ∧ m₁ = m₂ :=
  h.unique_of_keeps (keeps_of_error hp) h' (keeps_of_error hp')

end Machine

end ForthMachine
