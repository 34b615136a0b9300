import ForthMachine.Machine.Step

namespace ForthMachine

namespace Failure

def kind (f : Failure) : Trap.Kind := f.kind?.getD .ioFailure

@[simp] theorem kind_ofKind (kind : Trap.Kind) : (ofKind kind).kind = kind := rfl

@[simp] theorem kind_atAddress (kind : Trap.Kind) (a : Word) : (atAddress kind a).kind = kind := rfl

@[simp] theorem kind_trap (t : Trap) : (trap t).kind = t.kind := rfl

/-- A name in a failure does not change its reason. -/
theorem kind_inWord (f : Failure) (name : String) : (f.inWord name).kind = f.kind := by
  cases f with
  | host message => rfl
  | trap t =>
    change (t.inWord name).kind = t.kind
    unfold Trap.inWord
    split <;> rfl

end Failure

namespace Action

variable {σ τ α β : Type}

@[simp] theorem bind_apply (x : Action σ α) (f : α → Action σ β) (s : σ) :
    (x >>= f) s = match x s with
      | .ok a s => f a s
      | .error e s => .error e s := by
  change EStateM.bind x f s = _
  unfold EStateM.bind
  cases x s <;> rfl

@[simp] theorem pure_apply (a : α) (s : σ) : (pure a : Action σ α) s = .ok a s := rfl

@[simp] theorem map_apply (f : α → β) (x : Action σ α) (s : σ) :
    (f <$> x) s = match x s with
      | .ok a s => .ok (f a) s
      | .error e s => .error e s := by
  change EStateM.map f x s = _
  unfold EStateM.map
  cases x s <;> rfl

@[simp] theorem discard_apply (x : Action σ α) (s : σ) :
    (discard x) s = match x s with
      | .ok _ s => .ok .unit s
      | .error e s => .error e s := by
  change EStateM.map _ x s = _
  unfold EStateM.map
  cases x s <;> rfl

@[simp] theorem get_apply (s : σ) : (get : Action σ σ) s = .ok s s := rfl

@[simp] theorem set_apply (s t : σ) : (set t : Action σ PUnit) s = .ok .unit t := rfl

@[simp] theorem modify_apply (f : σ → σ) (s : σ) : (modify f : Action σ PUnit) s = .ok .unit (f s) := rfl

@[simp] theorem modifyGet_apply (f : σ → α × σ) (s : σ) :
    (modifyGet f : Action σ α) s = .ok (f s).1 (f s).2 := rfl

@[simp] theorem throw_apply (e : Failure) (s : σ) : (throw e : Action σ α) s = .error e s := rfl

@[simp] theorem raise_apply (kind : Trap.Kind) (s : σ) :
    (raise kind : Action σ α) s = .error (.ofKind kind) s := rfl

@[simp] theorem raiseAt_apply (kind : Trap.Kind) (a : Word) (s : σ) :
    (raiseAt kind a : Action σ α) s = .error (.atAddress kind a) s := rfl

@[simp] theorem orRaise_some (a : α) (kind : Trap.Kind) :
    (orRaise (some a) kind : Action σ α) = pure a := rfl

@[simp] theorem orRaise_none (kind : Trap.Kind) :
    (orRaise none kind : Action σ α) = raise kind := rfl

@[simp] theorem orRaiseAt_some (a : α) (kind : Trap.Kind) (address : Word) :
    (orRaiseAt (some a) kind address : Action σ α) = pure a := rfl

@[simp] theorem orRaiseAt_none (kind : Trap.Kind) (address : Word) :
    (orRaiseAt none kind address : Action σ α) = raiseAt kind address := rfl

@[simp] theorem zoom_apply (get : τ → σ) (set : σ → τ → τ) (x : Action σ α) (t : τ) :
    x.zoom get set t = match x (get t) with
      | .ok a s => .ok a (set s t)
      | .error e s => .error e (set s t) := rfl

/-- A result, with what is looked at in place of the whole. -/
def viewed (view : τ → σ) : EStateM.Result Failure τ α → EStateM.Result Failure σ α
  | .ok a t => .ok a (view t)
  | .error f t => .error f (view t)

/-- An action on a part ends on the whole as it does on the part alone. -/
theorem viewed_zoom {get : τ → σ} {set : σ → τ → τ} (hget : ∀ s t, get (set s t) = s) (x : Action σ α)
    (t : τ) : viewed get (x.zoom get set t) = x (get t) := by
  rw [zoom_apply]
  cases x (get t) <;> simp only [viewed, hget]

theorem inWord_apply (name : String) (x : Action σ α) (s : σ) :
    x.inWord name s = match x s with
      | .ok a s => .ok a s
      | .error e s => .error (e.inWord name) s := rfl

section Inversion

variable {get : τ → σ} {set : σ → τ → τ} {x : Action σ α} {t t' : τ} {g : α → Action σ β} {s s' : σ}
  {f : Failure}

/-- An action on a part succeeds as it does on the part alone. -/
theorem ok_of_zoom {a : α} (h : x.zoom get set t = .ok a t') : ∃ s, x (get t) = .ok a s ∧ t' = set s t := by
  rw [zoom_apply] at h
  cases hx : x (get t) with
  | error f s =>
    rw [hx] at h
    cases h
  | ok b s =>
    rw [hx] at h
    cases h
    exact ⟨s, rfl, rfl⟩

/-- An action on a part fails as it does on the part alone. -/
theorem error_of_zoom (h : x.zoom get set t = .error f t') :
    ∃ s, x (get t) = .error f s ∧ t' = set s t := by
  rw [zoom_apply] at h
  cases hx : x (get t) with
  | ok a s =>
    rw [hx] at h
    cases h
  | error f' s =>
    rw [hx] at h
    cases h
    exact ⟨s, rfl, rfl⟩

/-- Of two actions the first one fails, or the second one after the first has succeeded. -/
theorem error_of_bind (h : (x >>= g) s = .error f s') :
    x s = .error f s' ∨ ∃ a s₁, x s = .ok a s₁ ∧ g a s₁ = .error f s' := by
  rw [Action.bind_apply] at h
  cases hx : x s with
  | error f' s₁ =>
    rw [hx] at h
    cases h
    exact .inl rfl
  | ok a s₁ =>
    rw [hx] at h
    exact .inr ⟨a, s₁, rfl, h⟩

theorem ok_of_bind {b : β} (h : (x >>= g) s = .ok b s') : ∃ a s₁, x s = .ok a s₁ ∧ g a s₁ = .ok b s' := by
  rw [Action.bind_apply] at h
  cases hx : x s with
  | error f s₁ =>
    rw [hx] at h
    cases h
  | ok a s₁ =>
    rw [hx] at h
    exact ⟨a, s₁, rfl, h⟩

/-- If the second action succeeds whenever the first one does, only the first one can fail. -/
theorem error_of_bind_ok (hg : ∀ a s₁, x s = .ok a s₁ → ∃ b s₂, g a s₁ = .ok b s₂)
    (h : (x >>= g) s = .error f s') : x s = .error f s' := by
  rcases error_of_bind h with h | ⟨a, s₁, ha, h⟩
  · exact h
  · obtain ⟨b, s₂, hb⟩ := hg a s₁ ha
    rw [hb] at h
    cases h

theorem ok_of_map {k : α → β} {b : β} (h : (k <$> x) s = .ok b s') : ∃ a, x s = .ok a s' := by
  rw [Action.map_apply] at h
  cases hx : x s with
  | error f s₁ =>
    rw [hx] at h
    cases h
  | ok a s₁ =>
    rw [hx] at h
    cases h
    exact ⟨a, rfl⟩

theorem error_of_map {k : α → β} (h : (k <$> x) s = .error f s') : x s = .error f s' := by
  rw [Action.map_apply] at h
  cases hx : x s with
  | ok a s₁ =>
    rw [hx] at h
    cases h
  | error f' s₁ =>
    rw [hx] at h
    cases h
    rfl

end Inversion

end Action

namespace State

@[simp] theorem onStack_apply {α : Type} (x : Action (Stack Cell) α) (st : State) :
    onStack x st = match x st.stack with
      | .ok a s => .ok a { st with stack := s }
      | .error e s => .error e { st with stack := s } := by
  rw [onStack, Action.zoom_apply]
  cases x st.stack <;> rfl

@[simp] theorem push_apply (c : Cell) (st : State) :
    push c st = .ok () { st with stack := c :: st.stack } := rfl

@[simp] theorem store_apply (a : Word) (c : Cell) (st : State) :
    store a c st = .ok () { st with memory := st.memory.insert a c } := rfl

@[simp] theorem jump_apply (a : Word) (st : State) :
    jump a st = .ok () { st with ip := a, nip := a + 1 } := rfl

@[simp] theorem advance_apply (st : State) :
    advance st = .ok () { st with ip := st.nip, nip := st.nip + 1 } := rfl

@[simp] theorem modifyFlags_apply (i : Nat) (f : Flags → Flags) (st : State) :
    modifyFlags i f st = .ok () { st with dictionary := st.dictionary.modifyFlags i f } := rfl

theorem fetch_apply (a : Word) (st : State) :
    fetch a st = match st.memory[a]? with
      | some c => .ok c st
      | none => .error (.atAddress .unwrittenAddress a) st := by
  simp only [fetch, Action.bind_apply, Action.get_apply]
  cases st.memory[a]? <;> rfl

theorem fetch_of_getElem? {a : Word} {c : Cell} {st : State} (h : st.memory[a]? = some c) :
    fetch a st = .ok c st := by
  rw [fetch_apply, h]

theorem fetchAddress_of_getElem? {a b : Word} {c : Cell} {st : State} (h : st.memory[a]? = some c)
    (hb : c.address? = some b) : fetchAddress a st = .ok b st := by
  simp [fetchAddress, fetch_of_getElem? h, hb]

/-- Where the next free address is known, compiling a cell writes it there and moves the address. -/
theorem comma_of_here {c d : Cell} {h : Word} {st : State}
    (hd : st.memory[Memory.hereAddress]? = some d) (hh : d.address? = some h) :
    comma c st = .ok () { st with
      memory := (st.memory.insert h c).insert Memory.hereAddress (.addr (h + 1)) } := by
  simp [comma, fetchAddress_of_getElem? hd hh]

/-- Where the next free address and the newest header are known, defining a name writes a header and adds an
entry. -/
theorem define_of_here {name : String} {d link : Cell} {h : Word} {st : State}
    (hd : st.memory[Memory.hereAddress]? = some d) (hh : d.address? = some h)
    (hl : st.latestLink = .ok link) :
    define name st = .ok st.dictionary.size { st with
      memory := (((((st.memory.insert h (.ref (h + 3))).insert (h + 1) link).insert (h + 2)
        (.text name)).insert Memory.hereAddress (.addr (h + 3))).insert Memory.latestAddress (.addr h))
      dictionary := st.dictionary.insert { name, code := h + 3 } } := by
  simp [define, fetchAddress_of_getElem? hd hh, hl]

end State

namespace Machine

@[simp] theorem onState_apply {α : Type} (x : Action State α) (m : Machine) :
    onState x m = match x m.state with
      | .ok a st => .ok a { m with state := st }
      | .error e st => .error e { m with state := st } := by
  rw [onState, Action.zoom_apply]
  cases x m.state <;> rfl

@[simp] theorem onConsole_apply {α : Type} (x : Action Console α) (m : Machine) :
    onConsole x m = match x m.console with
      | .ok a c => .ok a { m with console := c }
      | .error e c => .error e { m with console := c } := by
  rw [onConsole, Action.zoom_apply]
  cases x m.console <;> rfl

section OnState

variable {α : Type} {x : Action State α} {m m' : Machine}

/-- An action on the state ends on the machine with the result that it has on the state alone. -/
theorem viewed_onState (x : Action State α) (m : Machine) :
    Action.viewed Machine.state (onState x m) = x m.state :=
  Action.viewed_zoom (fun _ _ => rfl) x m

/-- An action on the state succeeds on the machine only if it does on the state. -/
theorem ok_of_onState {a : α} (h : onState x m = .ok a m') : x m.state = .ok a m'.state := by
  rw [← viewed_onState x m, h]
  rfl

/-- An action on the state fails on the machine only if it does on the state. -/
theorem error_of_onState {f : Failure} (h : onState x m = .error f m') :
    x m.state = .error f m'.state := by
  rw [← viewed_onState x m, h]
  rfl

end OnState

@[simp] theorem note_apply (piece : String) (m : Machine) :
    note piece m = .ok () { m with console := m.console.note piece } := rfl

end Machine

namespace Builtin

theorem perform_finish_apply (x : Action Machine Unit) (m : Machine) :
    perform.finish x m = match x m with
      | .ok _ m' => .ok none m'
      | .error e m' => .error e m' := by
  simp only [perform.finish, Action.bind_apply]
  cases x m <;> rfl

theorem perform_onState_apply (x : Action State Unit) (m : Machine) :
    perform.onState x m = match x m.state with
      | .ok _ st => .ok none { m with state := st }
      | .error e st => .error e { m with state := st } := by
  simp only [perform.onState, perform_finish_apply, Machine.onState_apply]
  cases x m.state <;> rfl

end Builtin

end ForthMachine
