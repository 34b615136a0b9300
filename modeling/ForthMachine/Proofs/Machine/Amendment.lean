import ForthMachine.Proofs.Machine.Action

namespace ForthMachine

open Memory

def endState {ε σ α : Type} : EStateM.Result ε σ α → σ
  | .ok _ s => s
  | .error _ s => s

@[simp] theorem endState_ok {ε σ α : Type} (a : α) (s : σ) :
    endState (.ok a s : EStateM.Result ε σ α) = s := rfl

@[simp] theorem endState_error {ε σ α : Type} (e : ε) (s : σ) :
    endState (.error e s : EStateM.Result ε σ α) = s := rfl

theorem endState_viewed {σ τ α : Type} (view : σ → τ) (r : EStateM.Result Failure σ α) :
    endState (Action.viewed view r) = view (endState r) := by
  cases r <;> rfl

/-- On the machine an action leaves the state that it leaves by itself. -/
theorem Machine.state_endState_onState {α : Type} (x : Action State α) (m : Machine) :
    (endState (onState x m)).state = endState (x m.state) := by
  rw [← viewed_onState x m, endState_viewed]

def State.contents (st : State) : Memory × Dictionary := (st.memory, st.dictionary)

/-- An edit, with the number of cells that it takes from the free ones. -/
inductive Edit : Memory × Dictionary → Nat → Memory × Dictionary → Prop where
  | mode (M : Memory) (D : Dictionary) (c : Cell) : Edit (M, D) 0 (M.insert stateAddress c, D)
  | flags (M : Memory) (D : Dictionary) (i : Nat) (f : Flags → Flags) :
      Edit (M, D) 0 (M, D.modifyFlags i f)
  | cell {M : Memory} {d : Cell} {h : Word} (D : Dictionary) (c : Cell) :
      M[hereAddress]? = some d → d.address? = some h →
      Edit (M, D) 1 ((M.insert h c).insert hereAddress (.addr (h + 1)), D)
  | header {M : Memory} {d link : Cell} {h : Word} (D : Dictionary) (name : String) :
      M[hereAddress]? = some d → d.address? = some h →
      State.latestLink { memory := M } = .ok link →
      Edit (M, D) 3 (((((M.insert h (.ref (h + 3))).insert (h + 1) link).insert (h + 2)
        (.text name)).insert hereAddress (.addr (h + 3))).insert latestAddress (.addr h),
        D.insert { name, code := h + 3 })

inductive Amends : Memory × Dictionary → Nat → Memory × Dictionary → Prop where
  | refl (x : Memory × Dictionary) : Amends x 0 x
  | head {x y z : Memory × Dictionary} {m n : Nat} : Edit x m y → Amends y n z → Amends x (m + n) z

theorem Edit.amends {x y : Memory × Dictionary} {n : Nat} (h : Edit x n y) : Amends x n y :=
  .head h (.refl y)

/-- Edits after edits, with the cells of both. -/
theorem Amends.trans {x y z : Memory × Dictionary} {m n : Nat} (h : Amends x m y)
    (h' : Amends y n z) : Amends x (m + n) z := by
  induction h with
  | refl x =>
    rw [Nat.zero_add]
    exact h'
  | head he _ ih =>
    rw [Nat.add_assoc]
    exact .head he (ih h')

/-- The action leaves a part of the state as it was, whether it succeeds or fails. -/
def Spares {σ τ α : Type} (part : σ → τ) (x : Action σ α) : Prop := ∀ s, part (endState (x s)) = part s

section Spares

variable {σ τ α β : Type} {part : σ → τ} {x : Action σ α} {f : α → Action σ β}

/-- Actions that leave a part alone, one after another. -/
theorem Spares.bind (hx : Spares part x) (hf : ∀ a, Spares part (f a)) : Spares part (x >>= f) := by
  intro s
  have hs := hx s
  rw [Action.bind_apply]
  cases he : x s with
  | ok a s' =>
    rw [he] at hs
    exact (hf a s').trans hs
  | error e s' =>
    rw [he] at hs
    exact hs

theorem spares_pure (a : α) : Spares part (pure a : Action σ α) := fun _ => rfl

theorem spares_get : Spares part (get : Action σ σ) := fun _ => rfl

theorem spares_throw (e : Failure) : Spares part (throw e : Action σ α) := fun _ => rfl

theorem spares_orRaise (a : Option α) (kind : Trap.Kind) : Spares part (Action.orRaise a kind) := by
  cases a
  · exact spares_throw _
  · exact spares_pure _

theorem spares_orRaiseAt (a : Option α) (kind : Trap.Kind) (address : Word) :
    Spares part (Action.orRaiseAt a kind address) := by
  cases a
  · exact spares_throw _
  · exact spares_pure _

theorem Spares.map (hx : Spares part x) (g : α → β) : Spares part (g <$> x) := by
  intro s
  have hs := hx s
  rw [Action.map_apply]
  cases he : x s <;> rw [he] at hs <;> exact hs

/-- An action on a part leaves alone what does not depend on the part. -/
theorem spares_zoom {ρ : Type} {get : ρ → σ} {set : σ → ρ → ρ} {part : ρ → τ}
    (hset : ∀ s t, part (set s t) = part t) (x : Action σ α) : Spares part (x.zoom get set) := by
  intro t
  rw [Action.zoom_apply]
  cases x (get t) <;> exact hset _ t

/-- What an action on the state leaves alone, it leaves alone on the machine. -/
theorem Spares.onState {part : State → τ} {x : Action State α} (hx : Spares part x) :
    Spares (fun m : Machine => part m.state) (Machine.onState x) := by
  intro m
  have hs := hx m.state
  rwa [← Machine.state_endState_onState] at hs

/-- What is done to the console leaves the state alone. -/
theorem Machine.spares_onConsole {part : State → τ} (x : Action Console α) :
    Spares (fun m : Machine => part m.state) (onConsole x) :=
  spares_zoom (fun _ _ => by rfl) x

end Spares

def Idle {σ α : Type} (view : σ → State) (x : Action σ α) : Prop :=
  ∀ s, (view (endState (x s))).contents = (view s).contents

/-- The action edits memory and dictionary and takes at most `n` cells. -/
def Builds {σ α : Type} (view : σ → State) (n : Nat) (x : Action σ α) : Prop :=
  ∀ s, ∃ k, k ≤ n ∧ Amends (view s).contents k (view (endState (x s))).contents

section Composition

variable {σ τ α β : Type} {view : σ → State} {x : Action σ α} {f : α → Action σ β} {m n : Nat}

/-- To leave memory and dictionary alone is to leave a part of the state alone. -/
theorem idle_iff_spares : Idle view x ↔ Spares (fun s => (view s).contents) x := Iff.rfl

theorem Idle.bind (hx : Idle view x) (hf : ∀ a, Idle view (f a)) : Idle view (x >>= f) :=
  idle_iff_spares.mpr (Spares.bind (idle_iff_spares.mp hx) hf)

theorem idle_pure (a : α) : Idle view (pure a : Action σ α) := idle_iff_spares.mpr (spares_pure a)

theorem idle_get : Idle view (get : Action σ σ) := idle_iff_spares.mpr spares_get

theorem idle_throw (e : Failure) : Idle view (throw e : Action σ α) := idle_iff_spares.mpr (spares_throw e)

theorem idle_orRaise (a : Option α) (kind : Trap.Kind) : Idle view (Action.orRaise a kind) :=
  idle_iff_spares.mpr (spares_orRaise a kind)

theorem idle_modify {g : σ → σ} (h : ∀ s, (view (g s)).contents = (view s).contents) :
    Idle view (modify g : Action σ PUnit) := h

theorem Idle.map (hx : Idle view x) (g : α → β) : Idle view (g <$> x) :=
  idle_iff_spares.mpr (Spares.map (idle_iff_spares.mp hx) g)

theorem Idle.builds (hx : Idle view x) : Builds view 0 x := by
  intro s
  rw [hx s]
  exact ⟨0, Nat.le_refl 0, .refl _⟩

theorem Builds.mono (hx : Builds view m x) (h : m ≤ n) : Builds view n x := by
  intro s
  obtain ⟨k, hk, ha⟩ := hx s
  exact ⟨k, Nat.le_trans hk h, ha⟩

/-- Building after building, with the cells of both. -/
theorem Builds.bind (hx : Builds view m x) (hf : ∀ a, Builds view n (f a)) :
    Builds view (m + n) (x >>= f) := by
  intro s
  obtain ⟨k, hk, ha⟩ := hx s
  rw [Action.bind_apply]
  cases he : x s with
  | ok a s' =>
    rw [he] at ha
    obtain ⟨j, hj, hb⟩ := hf a s'
    exact ⟨k + j, by omega, ha.trans hb⟩
  | error e s' =>
    rw [he] at ha
    exact ⟨k, by omega, ha⟩

theorem Builds.map (hx : Builds view n x) (g : α → β) : Builds view n (g <$> x) := by
  intro s
  have hs := hx s
  rw [Action.map_apply]
  cases he : x s <;> rw [he] at hs <;> exact hs

theorem Idle.bind_builds (hx : Idle view x) (hf : ∀ a, Builds view n (f a)) :
    Builds view n (x >>= f) := by
  have h := hx.builds.bind hf
  rwa [Nat.zero_add] at h

theorem Builds.bind_idle (hx : Builds view n x) (hf : ∀ a, Idle view (f a)) :
    Builds view n (x >>= f) :=
  hx.bind fun a => (hf a).builds

end Composition

namespace State

variable {α : Type}

abbrev whole : State → State := id

/-- Reading memory leaves every part of the state alone. -/
theorem spares_fetch {part : State → α} (a : Word) : Spares part (fetch a) :=
  spares_get.bind fun _ => spares_orRaiseAt _ _ _

theorem spares_fetchAddress {part : State → α} (a : Word) : Spares part (fetchAddress a) :=
  (spares_fetch a).bind fun _ => spares_orRaiseAt _ _ _

theorem idle_onStack (x : Action (Stack Cell) α) : Idle whole (onStack x) :=
  idle_iff_spares.mpr (spares_zoom (fun _ _ => by rfl) x)

theorem idle_push (c : Cell) : Idle whole (push c) := fun _ => rfl

theorem idle_jump (a : Word) : Idle whole (jump a) := fun _ => rfl

theorem idle_advance : Idle whole advance := fun _ => rfl

theorem idle_fetch (a : Word) : Idle whole (fetch a) := idle_iff_spares.mpr (spares_fetch a)

theorem idle_fetchAddress (a : Word) : Idle whole (fetchAddress a) :=
  idle_iff_spares.mpr (spares_fetchAddress a)

theorem idle_latest : Idle whole latest := by
  refine (idle_fetchAddress _).bind fun link => idle_get.bind fun st => ?_
  cases st.headerPosition link with
  | ok i => exact idle_pure i
  | error t => exact idle_throw _

theorem builds_modifyFlags (i : Nat) (f : Flags → Flags) : Builds whole 0 (modifyFlags i f) :=
  fun st => ⟨0, Nat.le_refl 0, (Edit.flags st.memory st.dictionary i f).amends⟩

theorem builds_mode (c : Cell) : Builds whole 0 (store stateAddress c) :=
  fun st => ⟨0, Nat.le_refl 0, (Edit.mode st.memory st.dictionary c).amends⟩

/-- Reading an address either gives it or fails, and changes nothing. -/
theorem fetchAddress_apply (a : Word) (st : State) :
    (∃ d b, st.memory[a]? = some d ∧ d.address? = some b ∧ fetchAddress a st = .ok b st) ∨
      ∃ e, fetchAddress a st = .error e st := by
  cases hd : st.memory[a]? with
  | none => exact .inr ⟨.atAddress .unwrittenAddress a, by simp [fetchAddress, fetch_apply, hd]⟩
  | some d =>
    cases hb : d.address? with
    | none => exact .inr ⟨.atAddress .invalidAddress a, by simp [fetchAddress, fetch_apply, hd, hb]⟩
    | some b => exact .inl ⟨d, b, rfl, hb, fetchAddress_of_getElem? hd hb⟩

/-- Compiling a cell takes one cell, or nothing is done. -/
theorem builds_comma (c : Cell) : Builds whole 1 (comma c) := by
  intro st
  rcases fetchAddress_apply hereAddress st with ⟨d, h, hd, hh, -⟩ | ⟨e, he⟩
  · rw [comma_of_here hd hh]
    exact ⟨1, Nat.le_refl 1, (Edit.cell st.dictionary c hd hh).amends⟩
  · rw [comma, Action.bind_apply, he]
    exact ⟨0, by omega, .refl _⟩

/-- A header takes three cells, or nothing is done. -/
theorem builds_define (name : String) : Builds whole 3 (define name) := by
  intro st
  rcases fetchAddress_apply hereAddress st with ⟨d, h, hd, hh, hf⟩ | ⟨e, he⟩
  · cases hl : st.latestLink with
    | ok link =>
      rw [define_of_here hd hh hl]
      exact ⟨3, Nat.le_refl 3, (Edit.header st.dictionary name hd hh hl).amends⟩
    | error t =>
      simp only [define, Action.bind_apply, hf, Action.get_apply, hl, Action.throw_apply]
      exact ⟨0, by omega, .refl _⟩
  · rw [define, Action.bind_apply, he]
    exact ⟨0, by omega, .refl _⟩

end State

end ForthMachine
