import ForthMachine.Proofs.Machine.Amendment
import ForthMachine.Proofs.Memory.Block
import ForthMachine.Proofs.Words.Operand

/-!
What an action has done by the time it fails. Operands are taken first, and an action that needs several
makes sure that there are as many, so an action that fails for want of cells has done nothing. After the
operands come actions that leave the state alone when they fail, and last those that do not fail.
-/

namespace ForthMachine

open Memory

def Failure.IsUnderflow (f : Failure) : Prop := f.kind = .stackUnderflow ∨ f.kind = .returnUnderflow

instance (f : Failure) : Decidable f.IsUnderflow := inferInstanceAs (Decidable (_ ∨ _))

def Trap.Kind.IsFault (kind : Trap.Kind) : Prop :=
  kind = .unwrittenAddress ∨ kind = .invalidAddress ∨ kind = .dictionaryInconsistency

theorem Failure.not_underflow_of_fault {f : Failure} (h : f.kind.IsFault) : ¬f.IsUnderflow := by
  rcases h with h | h | h <;> simp [IsUnderflow, h]

def State.taking (st : State) (k : Nat) : State := { st with stack := st.stack.drop k }

@[simp] theorem State.taking_zero (st : State) : st.taking 0 = st := rfl

theorem State.taking_taking (st : State) (j k : Nat) : (st.taking j).taking k = st.taking (j + k) := by
  simp [taking]

def Succeeds {σ α : Type} (x : Action σ α) : Prop := ∀ s, ∃ a s', x s = .ok a s'

section Succeeds

variable {σ α β : Type} {x : Action σ α} {g : α → Action σ β} {s s' : σ} {f : Failure}

theorem Succeeds.ne_error (hx : Succeeds x) : x s ≠ .error f s' := by
  obtain ⟨a, s₁, ha⟩ := hx s
  rw [ha]
  exact nofun

theorem Succeeds.bind (hx : Succeeds x) (hg : ∀ a, Succeeds (g a)) : Succeeds (x >>= g) := by
  intro s
  obtain ⟨a, s₁, ha⟩ := hx s
  rw [Action.bind_apply, ha]
  exact hg a s₁

theorem succeeds_pure (a : α) : Succeeds (pure a : Action σ α) := fun s => ⟨a, s, rfl⟩

theorem succeeds_modify (k : σ → σ) : Succeeds (modify k : Action σ PUnit) := fun s => ⟨_, k s, rfl⟩

/-- Where the second action does not fail, the failure is that of the first one. -/
theorem error_of_bind_succeeds (hg : ∀ a, Succeeds (g a)) (h : (x >>= g) s = .error f s') :
    x s = .error f s' :=
  Action.error_of_bind_ok (fun a s₁ _ => hg a s₁) h

end Succeeds

namespace Operand

variable {α β : Type} {x : Action (Stack Cell) α} {g : α → Action (Stack Cell) β} {n : Nat}

structure Pops (x : Action (Stack Cell) α) : Prop where
  nil : x [] = .error (.ofKind .stackUnderflow) []
  cons : ∀ c s, (∃ a, x (c :: s) = .ok a s) ∨ ∃ f, x (c :: s) = .error f s ∧ ¬f.IsUnderflow

/-- Where there are `n` cells the action does not fail for want of cells, and takes some if it fails. -/
def Suffices (n : Nat) (x : Action (Stack Cell) α) : Prop :=
  ∀ s f s', n ≤ s.length → x s = .error f s' → (∃ k, s' = s.drop k) ∧ ¬f.IsUnderflow

/-- The action takes cells from the stack when it succeeds. -/
def Takes (x : Action (Stack Cell) α) : Prop := ∀ s a s', x s = .ok a s' → ∃ k, s' = s.drop k

/-- The action takes cells from the stack when it fails, but none if it fails for want of cells. -/
def Balks (x : Action (Stack Cell) α) : Prop :=
  ∀ s f s', x s = .error f s' → ∃ k, s' = s.drop k ∧ (f.IsUnderflow → k = 0)

theorem pops_cell : Pops cell where
  nil := rfl
  cons c _ := .inl ⟨c, rfl⟩

/-- Taking a cell that has to be of some sort. -/
theorem pops_read (read : Cell → Option α) {f : Failure} (hf : ¬f.IsUnderflow) :
    Pops (do
      match read (← cell) with
      | some a => pure a
      | none => throw f) where
  nil := rfl
  cons c s := by
    simp only [Action.bind_apply, cell_cons]
    cases read c with
    | some a => exact .inl ⟨a, rfl⟩
    | none => exact .inr ⟨f, rfl, hf⟩

theorem pops_number : Pops number :=
  pops_read Cell.number? (f := .ofKind .typeMismatch) (by decide)

theorem pops_text : Pops text :=
  pops_read Cell.text? (f := .ofKind .typeMismatch) (by decide)

theorem pops_address : Pops address :=
  pops_read Cell.address? (f := .atAddress .invalidAddress (-1)) (by decide)

theorem pops_token : Pops token :=
  pops_read Cell.token? (f := .atAddress .invalidAddress (-1)) (by decide)

/-- Taking one cell takes cells. -/
theorem Pops.takes (hx : Pops x) : Takes x := by
  intro s a s' h
  cases s with
  | nil =>
    rw [hx.nil] at h
    cases h
  | cons c s =>
    rcases hx.cons c s with ⟨b, hb⟩ | ⟨f, hf, -⟩
    · rw [hb] at h
      cases h
      exact ⟨1, rfl⟩
    · rw [hf] at h
      cases h

/-- Taking one cell fails for want of it, or when it is gone. -/
theorem Pops.balks (hx : Pops x) : Balks x := by
  intro s f s' h
  cases s with
  | nil =>
    rw [hx.nil] at h
    cases h
    exact ⟨0, rfl, fun _ => rfl⟩
  | cons c s =>
    rcases hx.cons c s with ⟨b, hb⟩ | ⟨f', hf, hu⟩
    · rw [hb] at h
      cases h
    · rw [hf] at h
      cases h
      exact ⟨1, rfl, fun hf' => absurd hf' hu⟩

/-- A word that takes one cell less afterwards needs one cell less. -/
theorem Pops.bind (hx : Pops x) (hg : ∀ a, Suffices n (g a)) : Suffices (n + 1) (x >>= g) := by
  intro s f s' hn h
  rw [Action.bind_apply] at h
  cases s with
  | nil => exact absurd hn (by simp)
  | cons c s =>
    rcases hx.cons c s with ⟨a, ha⟩ | ⟨f', hf, hu⟩
    · rw [ha] at h
      obtain ⟨⟨k, hk⟩, hu⟩ := hg a s f s' (Nat.le_of_succ_le_succ hn) h
      exact ⟨⟨k + 1, hk⟩, hu⟩
    · rw [hf] at h
      cases h
      exact ⟨⟨1, rfl⟩, hu⟩

theorem suffices_of_succeeds (hx : Succeeds x) : Suffices n x :=
  fun _ _ _ _ h => absurd h hx.ne_error

/-- A word that first makes sure of its operands. -/
theorem balks_need (hx : Suffices n x) : Balks (do need n; x) := by
  intro s f s' h
  rw [Action.bind_apply, need_apply] at h
  by_cases hn : s.length < n
  · rw [if_pos hn] at h
    cases h
    exact ⟨0, rfl, fun _ => rfl⟩
  · rw [if_neg hn] at h
    obtain ⟨⟨k, hk⟩, hu⟩ := hx s f s' (Nat.le_of_not_lt hn) h
    exact ⟨k, hk, fun hf => absurd hf hu⟩

theorem takes_pure (a : α) : Takes (pure a : Action (Stack Cell) α) := by
  intro s b s' h
  cases h
  exact ⟨0, rfl⟩

theorem takes_need (n : Nat) : Takes (need n) := by
  intro s a s' h
  rw [need_apply] at h
  split at h
  · cases h
  · cases h
    exact ⟨0, rfl⟩

theorem Takes.bind (hx : Takes x) (hg : ∀ a, Takes (g a)) : Takes (x >>= g) := by
  intro s b s' h
  obtain ⟨a, s₁, ha, hb⟩ := Action.ok_of_bind h
  obtain ⟨j, rfl⟩ := hx s a s₁ ha
  obtain ⟨k, rfl⟩ := hg a _ b s' hb
  exact ⟨j + k, by rw [List.drop_drop]⟩

theorem Balks.bind (hx : Balks x) (hg : ∀ a, Succeeds (g a)) : Balks (x >>= g) :=
  fun s f s' h => hx s f s' (error_of_bind_succeeds hg h)

theorem balks_rearrange (f : Stack Cell → Option (Stack Cell)) : Balks (rearrange f) := by
  intro s e s' h
  rw [rearrange_apply] at h
  split at h
  · cases h
  · cases h
    exact ⟨0, rfl, fun _ => rfl⟩

theorem balks_binary (f : Word → Word → Cell) : Balks (binary f) := by
  apply balks_need
  refine pops_number.bind fun y => pops_number.bind fun x => ?_
  exact suffices_of_succeeds (n := 0) (succeeds_modify _)

/-- Two operands, after making sure that there are two. -/
theorem balks_pair {y : Action (Stack Cell) β} (hx : Pops x) (hy : Pops y) :
    Balks (do need 2; let a ← x; let b ← y; pure (a, b)) := by
  apply balks_need
  refine hx.bind fun a => hy.bind fun b => ?_
  exact suffices_of_succeeds (n := 0) (succeeds_pure _)

theorem takes_pair {y : Action (Stack Cell) β} (hx : Pops x) (hy : Pops y) :
    Takes (do need 2; let a ← x; let b ← y; pure (a, b)) :=
  (takes_need 2).bind fun _ => hx.takes.bind fun _ => hy.takes.bind fun _ => takes_pure _

end Operand

/-- The action, when it fails, has only taken cells from the stack, and none if it fails for want of
cells. -/
def Recoils {σ α : Type} (view : σ → State) (x : Action σ α) : Prop :=
  ∀ s f s', x s = .error f s' → ∃ k, view s' = (view s).taking k ∧ (f.IsUnderflow → k = 0)

/-- The action, when it fails, has done nothing to the state, and does not fail for want of cells. -/
def Refuses {σ α : Type} (view : σ → State) (x : Action σ α) : Prop :=
  ∀ s f s', x s = .error f s' → view s' = view s ∧ ¬f.IsUnderflow

def Reads {σ α : Type} (view : σ → State) (x : Action σ α) : Prop :=
  ∀ s a s', x s = .ok a s' → view s' = view s

def Trims {σ α : Type} (view : σ → State) (x : Action σ α) : Prop :=
  ∀ s a s', x s = .ok a s' → ∃ k, view s' = (view s).taking k

section Composition

variable {σ α β : Type} {view : σ → State} {x : Action σ α} {g : α → Action σ β}

theorem Succeeds.refuses (hx : Succeeds x) : Refuses view x :=
  fun _ _ _ h => absurd h hx.ne_error

theorem Refuses.recoils (hx : Refuses view x) : Recoils view x := by
  intro s f s' h
  obtain ⟨hs, hu⟩ := hx s f s' h
  exact ⟨0, hs, fun hf => absurd hf hu⟩

/-- What leaves the state alone leaves it alone when it succeeds. -/
theorem Spares.reads (hx : Spares view x) : Reads view x := by
  intro s a s' h
  have hs := hx s
  rwa [h] at hs

/-- What follows the operands does not fail. -/
theorem Recoils.bind (hx : Recoils view x) (hg : ∀ a, Succeeds (g a)) : Recoils view (x >>= g) :=
  fun s f s' h => hx s f s' (error_of_bind_succeeds hg h)

/-- After the operands are taken, an action follows that leaves the state alone when it fails. -/
theorem Recoils.bind_refuses (hx : Recoils view x) (ht : Trims view x) (hg : ∀ a, Refuses view (g a)) :
    Recoils view (x >>= g) := by
  intro s f s' h
  rcases Action.error_of_bind h with h | ⟨a, s₁, ha, h⟩
  · exact hx s f s' h
  · obtain ⟨k, hk⟩ := ht s a s₁ ha
    obtain ⟨hs, hu⟩ := hg a s₁ f s' h
    exact ⟨k, hs.trans hk, fun hf => absurd hf hu⟩

theorem Recoils.map (hx : Recoils view x) (k : α → β) : Recoils view (k <$> x) :=
  fun s f s' h => hx s f s' (Action.error_of_map h)

/-- Reading after reading, where a failure leaves the state alone. -/
theorem Refuses.bind (hx : Refuses view x) (hr : Reads view x) (hg : ∀ a, Refuses view (g a)) :
    Refuses view (x >>= g) := by
  intro s f s' h
  rcases Action.error_of_bind h with h | ⟨a, s₁, ha, h⟩
  · exact hx s f s' h
  · rw [← hr s a s₁ ha]
    exact hg a s₁ f s' h

theorem Refuses.bind_succeeds (hx : Refuses view x) (hg : ∀ a, Succeeds (g a)) :
    Refuses view (x >>= g) :=
  fun s f s' h => hx s f s' (error_of_bind_succeeds hg h)

theorem refuses_throw {f : Failure} (hf : ¬f.IsUnderflow) : Refuses view (throw f : Action σ α) := by
  intro s f' s' h
  cases h
  exact ⟨rfl, hf⟩

theorem refuses_orRaise (a : Option α) {kind : Trap.Kind} (hk : ¬(Failure.ofKind kind).IsUnderflow) :
    Refuses view (Action.orRaise a kind) := by
  cases a with
  | some a => exact (succeeds_pure a).refuses
  | none => exact refuses_throw hk

theorem refuses_orRaiseAt (a : Option α) {kind : Trap.Kind} (address : Word)
    (hk : ¬(Failure.ofKind kind).IsUnderflow) : Refuses view (Action.orRaiseAt a kind address) := by
  cases a with
  | some a => exact (succeeds_pure a).refuses
  | none => exact refuses_throw hk

/-- Reading the state first. -/
theorem Refuses.get_bind {g : σ → Action σ β} (hg : ∀ s, Refuses view (g s)) :
    Refuses view (get >>= g) := by
  refine Refuses.bind ?_ ?_ hg
  · exact Succeeds.refuses fun s => ⟨s, s, rfl⟩
  · intro s a s' h
    cases h
    rfl

end Composition

namespace State

variable {α β : Type} {c : Cell} {a : Word}

/-- On the state, an action on the stack takes cells from the stack alone. -/
theorem recoils_onStack {x : Action (Stack Cell) α} (hx : Operand.Balks x) :
    Recoils whole (onStack x) := by
  intro st f st' h
  obtain ⟨s, hs, rfl⟩ := Action.error_of_zoom h
  obtain ⟨k, rfl, hk⟩ := hx _ _ _ hs
  exact ⟨k, rfl, hk⟩

theorem trims_onStack {x : Action (Stack Cell) α} (hx : Operand.Takes x) : Trims whole (onStack x) := by
  intro st a st' h
  obtain ⟨s, hs, rfl⟩ := Action.ok_of_zoom h
  obtain ⟨k, rfl⟩ := hx _ _ _ hs
  exact ⟨k, rfl⟩

theorem recoils_pops_bind {x : Action (Stack Cell) α} {g : α → Action State β} (hx : Operand.Pops x)
    (hg : ∀ a, Refuses whole (g a)) : Recoils whole (onStack x >>= g) :=
  (recoils_onStack hx.balks).bind_refuses (trims_onStack hx.takes) hg

theorem succeeds_push (c : Cell) : Succeeds (push c) := succeeds_modify _

theorem succeeds_store (a : Word) (c : Cell) : Succeeds (store a c) := succeeds_modify _

theorem succeeds_jump (a : Word) : Succeeds (jump a) := succeeds_modify _

theorem succeeds_advance : Succeeds advance := succeeds_modify _

theorem succeeds_modifyFlags (i : Nat) (f : Flags → Flags) : Succeeds (modifyFlags i f) :=
  succeeds_modify _

theorem refuses_fetch (a : Word) : Refuses whole (fetch a) :=
  .get_bind fun _ => refuses_orRaiseAt _ _ (by decide)

theorem reads_fetch (a : Word) : Reads whole (fetch a) := by
  intro st c st' h
  rw [fetch_apply] at h
  split at h <;> cases h
  rfl

theorem refuses_fetchAddress (a : Word) : Refuses whole (fetchAddress a) :=
  (refuses_fetch a).bind (reads_fetch a) fun _ => refuses_orRaiseAt _ _ (by decide)

theorem reads_fetchAddress (a : Word) : Reads whole (fetchAddress a) := by
  intro st b st' h
  rcases fetchAddress_apply a st with ⟨_, b', -, -, hb⟩ | ⟨e, he⟩
  · rw [hb] at h
    cases h
    rfl
  · rw [he] at h
    cases h

theorem refuses_comma (c : Cell) : Refuses whole (comma c) :=
  (refuses_fetchAddress _).bind_succeeds fun _ => (succeeds_store _ _).bind fun _ => succeeds_store _ _

/-- A link cannot be made when the variable holds neither an address nor the empty cell. -/
theorem fault_of_latestLink {st : State} {t : Trap} (h : st.latestLink = .error t) : t.kind.IsFault := by
  unfold latestLink at h
  split at h
  · cases h
  · cases h
  · split at h <;> cases h
    exact .inr (.inl rfl)

/-- A header leads nowhere when its first cell was never written, or names no entry. -/
theorem fault_of_headerPosition {st : State} {link : Word} {t : Trap}
    (h : st.headerPosition link = .error t) : t.kind.IsFault := by
  unfold headerPosition at h
  split at h
  · cases h
    exact .inl rfl
  · split at h <;> cases h
    exact .inr (.inr rfl)

theorem fault_of_fetchAddress {st st' : State} {a : Word} {f : Failure}
    (h : fetchAddress a st = .error f st') : f.kind.IsFault := by
  cases hd : st.memory[a]? with
  | none =>
    simp only [fetchAddress, Action.bind_apply, fetch_apply, hd] at h
    cases h
    exact .inl rfl
  | some d =>
    cases hb : d.address? with
    | none =>
      simp only [fetchAddress, Action.bind_apply, fetch_apply, hd, hb] at h
      cases h
      exact .inr (.inl rfl)
    | some b =>
      rw [fetchAddress_of_getElem? hd hb] at h
      cases h

/-- A header is written only when the address and the link are known. -/
theorem refuses_define (name : String) : Refuses whole (define name) := by
  refine (refuses_fetchAddress _).bind (reads_fetchAddress _) fun h => .get_bind fun st => ?_
  cases hl : st.latestLink with
  | error t => exact refuses_throw (Failure.not_underflow_of_fault (fault_of_latestLink hl))
  | ok link =>
    apply Succeeds.refuses
    refine (succeeds_store _ _).bind fun _ => (succeeds_store _ _).bind fun _ =>
      (succeeds_store _ _).bind fun _ => (succeeds_store _ _).bind fun _ =>
      (succeeds_store _ _).bind fun _ => ?_
    exact fun st => ⟨_, _, rfl⟩

theorem refuses_latest : Refuses whole latest := by
  refine (refuses_fetchAddress _).bind (reads_fetchAddress _) fun link => .get_bind fun st => ?_
  cases hp : st.headerPosition link with
  | error t => exact refuses_throw (Failure.not_underflow_of_fault (fault_of_headerPosition hp))
  | ok i => exact (succeeds_pure i).refuses

theorem fault_of_latest {st st' : State} {f : Failure} (h : latest st = .error f st') : f.kind.IsFault := by
  rcases Action.error_of_bind h with h | ⟨link, st₁, -, h⟩
  · exact fault_of_fetchAddress h
  · simp only [Action.bind_apply, Action.get_apply] at h
    cases hp : st₁.headerPosition link with
    | ok i =>
      rw [hp] at h
      cases h
    | error t =>
      rw [hp] at h
      cases h
      exact fault_of_headerPosition hp

/-- What compiling a cell has done. -/
theorem ok_of_comma {st st' : State} {u : Unit} (h : comma c st = .ok u st') :
    ∃ d a, st.memory[hereAddress]? = some d ∧ d.address? = some a ∧ st' = { st with
      memory := (st.memory.insert a c).insert hereAddress (.addr (a + 1)) } := by
  rcases fetchAddress_apply hereAddress st with ⟨d, a, hd, ha, -⟩ | ⟨e, he⟩
  · rw [comma_of_here hd ha] at h
    cases h
    exact ⟨d, a, hd, ha, rfl⟩
  · rw [comma, Action.bind_apply, he] at h
    cases h

/-- What defining a name has done. -/
theorem ok_of_define {name : String} {i : Nat} {st st' : State} (h : define name st = .ok i st') :
    ∃ d a link, st.memory[hereAddress]? = some d ∧ d.address? = some a ∧ st.latestLink = .ok link ∧
      st' = { st with
        memory := ((((st.memory.insert a (.ref (a + 3))).insert (a + 1) link).insert (a + 2)
          (.text name)).insert hereAddress (.addr (a + 3))).insert latestAddress (.addr a)
        dictionary := st.dictionary.insert { name, code := a + 3 } } := by
  rcases fetchAddress_apply hereAddress st with ⟨d, a, hd, ha, hf⟩ | ⟨e, he⟩
  · cases hl : st.latestLink with
    | ok link =>
      rw [define_of_here hd ha hl] at h
      cases h
      exact ⟨d, a, link, hd, ha, rfl, rfl⟩
    | error t =>
      simp only [define, Action.bind_apply, hf, Action.get_apply, hl, Action.throw_apply] at h
      cases h
  · rw [define, Action.bind_apply, he] at h
    cases h

def Anchored (st : State) : Prop := ∃ h, st.memory[hereAddress]? = some (.addr h)

theorem Anchored.comma {st : State} (ha : st.Anchored) (c : Cell) : ∃ st', State.comma c st = .ok () st' := by
  obtain ⟨h, hh⟩ := ha
  exact ⟨_, comma_of_here hh rfl⟩

theorem anchored_of_comma {st st' : State} {u : Unit} (h : State.comma c st = .ok u st') :
    st'.Anchored := by
  obtain ⟨d, a, -, -, rfl⟩ := ok_of_comma h
  exact ⟨a + 1, getElem?_insert_eq _ _ _⟩

/-- After a header the next free address is held as an address. -/
theorem anchored_of_define {name : String} {i : Nat} {st st' : State} (h : define name st = .ok i st') :
    st'.Anchored := by
  obtain ⟨d, a, link, -, -, -, rfl⟩ := ok_of_define h
  exact ⟨a + 3, (getElem?_insert_ne _ _ (by decide)).trans (getElem?_insert_eq _ _ _)⟩

end State

namespace Machine

open State

variable {α β : Type}

/-- What an action leaves of the state when it fails is left of the machine. -/
theorem recoils_onState {x : Action State α} (hx : Recoils whole x) :
    Recoils Machine.state (onState x) :=
  fun _ _ _ h => hx _ _ _ (error_of_onState h)

theorem trims_onState {x : Action State α} (hx : Trims whole x) : Trims Machine.state (onState x) :=
  fun _ _ _ h => hx _ _ _ (ok_of_onState h)

theorem refuses_onState {x : Action State α} (hx : Refuses whole x) :
    Refuses Machine.state (onState x) :=
  fun _ _ _ h => hx _ _ _ (error_of_onState h)

theorem succeeds_onState {x : Action State α} (hx : Succeeds x) : Succeeds (onState x) := by
  intro m
  obtain ⟨a, st, hs⟩ := hx m.state
  exact ⟨a, { m with state := st }, by rw [onState_apply, hs]⟩

theorem refuses_onConsole {x : Action Console α}
    (hx : ∀ c f c', x c = .error f c' → ¬f.IsUnderflow) : Refuses Machine.state (onConsole x) := by
  intro m f m' h
  obtain ⟨c, hc, rfl⟩ := Action.error_of_zoom h
  exact ⟨rfl, hx _ _ _ hc⟩

theorem reads_onConsole (x : Action Console α) : Reads Machine.state (onConsole x) :=
  Spares.reads (spares_zoom (fun _ _ => by rfl) x)

theorem recoils_pops_bind {x : Action (Stack Cell) α} {g : α → Action Machine β} (hx : Operand.Pops x)
    (hg : ∀ a, Refuses Machine.state (g a)) : Recoils Machine.state (onState (onStack x) >>= g) :=
  (recoils_onState (recoils_onStack hx.balks)).bind_refuses
    (trims_onState (trims_onStack hx.takes)) hg

end Machine

end ForthMachine
