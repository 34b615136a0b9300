import ForthMachine.Proofs.Machine.Progress
import ForthMachine.Proofs.Memory.Block

namespace ForthMachine

namespace State

def running (memory : Memory) (dictionary : Dictionary) (a : Word) (returns : Stack Word)
    (stack : Stack Cell) : State where
  ip := a
  nip := a.plus 1
  memory := memory
  dictionary := dictionary
  returns := returns
  stack := stack

/-- Goes on at the next cell after an ordinary word; a word with next has gone on by itself. -/
def after (st : State) (b : Builtin) : State :=
  match b.contract with
  | .withNext => st
  | .ordinary => { st with ip := st.nip, nip := st.nip + 1 }

end State

namespace Machine

open State

section Words

variable {b : Builtin} {x : Action State Unit} {st st' : State} {input : Option Source}
  {output : Option Sink} {w : Word}

/-- A word that works on the state goes through as its action does. -/
theorem performs_onState (hb : b.perform w = Builtin.perform.onState x) (hx : x st = .ok () st') :
    Performs w (.builtin b) (Shows st input output) (Shows (st'.after b) input output) := by
  intro m hm
  have hp : b.perform w m = .ok none { m with state := st' } := by
    rw [hb, Builtin.perform_onState_apply, hm.state, hx]
  refine ⟨{ m with state := st'.after b }, ?_, hm.withState _⟩
  cases hc : b.contract with
  | withNext => simp only [Primitive.perform, hc, hp, State.after]
  | ordinary => simp [Primitive.perform, hc, hp, State.after]

/-- A word that works on the state raises the traps of its action. -/
theorem raises_onState {t : Trap} (hb : b.perform w = Builtin.perform.onState x)
    (hx : x st = .error (.trap t) st') (ht : t.word = "") :
    Raises w (.builtin b) (Shows st input output) t.kind (Shows st' input output) := by
  intro m hm
  have hp : b.perform w m = .error (.trap t) { m with state := st' } := by
    rw [hb, Builtin.perform_onState_apply, hm.state, hx]
  refine ⟨t, { m with state := st' }, ?_, ht, rfl, hm.withState st'⟩
  cases hc : b.contract with
  | withNext => simp only [Primitive.perform, hc, hp]
  | ordinary => simp [Primitive.perform, hc, hp]

end Words

section Cells

variable {M M' : Memory} {D D' : Dictionary} {a code : Word} {R R' : Stack Word} {S S' : Stack Cell}
  {input : Option Source} {output : Option Sink} {b : Builtin} {x : Action State Unit} {c : Cell}

/-- A cell that refers to an ordinary word: the word runs and the machine goes on at the next cell. -/
theorem leads_ordinary (hc : M[a]? = some (.ref code)) (hf : M[code]? = some (.builtin b))
    (hb : b.perform code = Builtin.perform.onState x) (ho : b.contract = .ordinary)
    (hx : x (running M D a R S) = .ok () (running M' D' a R' S')) :
    Leads (Shows (running M D a R S) input output)
      (Shows (running M' D' (a.plus 1) R' S') input output) := by
  have hafter : (running M' D' a R' S').after b = running M' D' (a.plus 1) R' S' := by
    unfold State.after
    rw [ho]
    rfl
  apply leads_of_performs hc (resolve_ref hf)
  rw [← hafter]
  exact performs_onState hb hx

/-- A cell that refers to a word with next, or that holds one: the word decides where to go on. -/
theorem leads_withNext {cell : Cell} {w : Word} {st' : State} (hc : M[a]? = some cell)
    (hr : resolve (running M D a R S) a cell = .ok (w, .builtin b))
    (hb : b.perform w = Builtin.perform.onState x) (ho : b.contract = .withNext)
    (hx : x (running M D a R S) = .ok () st') :
    Leads (Shows (running M D a R S) input output) (Shows st' input output) := by
  have hafter : st'.after b = st' := by
    unfold State.after
    rw [ho]
  apply leads_of_performs hc hr
  rw [← hafter]
  exact performs_onState hb hx

/-- LIT puts the cell after it on the stack. -/
theorem leads_lit (hc : M.Holds a [.builtin .lit, c]) :
    Leads (Shows (running M D a R S) input output)
      (Shows (running M D (a.plus 2) R (c :: S)) input output) := by
  obtain ⟨hlit, hcell⟩ := Memory.holds_cons.mp hc
  rw [Memory.holds_singleton] at hcell
  apply leads_withNext hlit (resolve_prim _ _ _) rfl rfl
  have hf : fetch (a.plus 1) (running M D a R S) = .ok c (running M D a R S) :=
    fetch_of_getElem? hcell
  have hnip : (running M D a R S).nip = a.plus 1 := rfl
  simp only [Control.lit, Action.bind_apply, Action.get_apply, hnip, hf, push_apply, jump_apply]
  simp [running, Word.plus_add_one]

/-- A branch counts its offset from the cell that holds it. -/
theorem leads_branch {offset : Word} (hc : M.Holds a [.ref code, .int offset])
    (hf : M[code]? = some (.builtin .branch)) :
    Leads (Shows (running M D a R S) input output)
      (Shows (running M D (a.plus 1 + offset) R S) input output) := by
  obtain ⟨href, hcell⟩ := Memory.holds_cons.mp hc
  rw [Memory.holds_singleton] at hcell
  apply leads_withNext href (resolve_ref hf) rfl rfl
  have hfetch : fetch (a.plus 1) (running M D a R S) = .ok (.int offset) (running M D a R S) :=
    fetch_of_getElem? hcell
  have hnip : (running M D a R S).nip = a.plus 1 := rfl
  simp only [Control.branch, Action.bind_apply, Action.get_apply, hnip, hfetch, Cell.address?,
    Action.orRaise_some, Action.pure_apply, jump_apply]
  rfl

/-- A branch at the end of a loop of one word, back to its start. -/
theorem leads_back (hc : M.Holds a [c, .ref code, .int (-2)]) (hf : M[code]? = some (.builtin .branch)) :
    Leads (Shows (running M D (a.plus 1) R S) input output)
      (Shows (running M D a R S) input output) := by
  -- the offset is counted from its own cell, two cells behind the start of the loop
  have hback : (a.plus 1).plus 1 + (-2) = a := by
    have h := Word.plus_add_neg_ofNat a 0 2
    simpa using h
  have hbranch : Leads (Shows (running M D (a.plus 1) R S) input output)
      (Shows (running M D ((a.plus 1).plus 1 + (-2)) R S) input output) :=
    leads_branch (Memory.holds_cons.mp hc).2 hf
  rw [hback] at hbranch
  exact hbranch

/-- On a false flag the branch is taken. -/
theorem leads_zeroBranch_of_isFalse {offset : Word} (hc : M.Holds a [.ref code, .int offset])
    (hf : M[code]? = some (.builtin .zeroBranch)) (hflag : c.isFalse = true) :
    Leads (Shows (running M D a R (c :: S)) input output)
      (Shows (running M D (a.plus 1 + offset) R S) input output) := by
  obtain ⟨href, hcell⟩ := Memory.holds_cons.mp hc
  rw [Memory.holds_singleton] at hcell
  apply leads_withNext href (resolve_ref hf) rfl rfl
  have hfetch : fetch (a.plus 1) (running M D a R S) = .ok (.int offset) (running M D a R S) :=
    fetch_of_getElem? hcell
  have hpop : onStack Operand.cell (running M D a R (c :: S)) = .ok c (running M D a R S) := rfl
  have hnip : (running M D a R S).nip = a.plus 1 := rfl
  simp only [Control.zeroBranch, Action.bind_apply, hpop, hflag, ↓reduceIte, Control.branch,
    Action.get_apply, hnip, hfetch, Cell.address?, Action.orRaise_some, Action.pure_apply, jump_apply]
  rfl

/-- On a true flag the offset is passed over. -/
theorem leads_zeroBranch_of_not_isFalse (hc : M[a]? = some (.ref code))
    (hf : M[code]? = some (.builtin .zeroBranch)) (hflag : c.isFalse = false) :
    Leads (Shows (running M D a R (c :: S)) input output)
      (Shows (running M D (a.plus 2) R S) input output) := by
  apply leads_withNext hc (resolve_ref hf) rfl rfl
  have hpop : onStack Operand.cell (running M D a R (c :: S)) = .ok c (running M D a R S) := rfl
  have hnip : (running M D a R S).nip = a.plus 1 := rfl
  simp only [Control.zeroBranch, Action.bind_apply, hpop, hflag, Bool.false_eq_true, ↓reduceIte,
    Action.get_apply, hnip, jump_apply]
  simp [running, Word.plus_add_one]

/-- A cell that refers to a word which raises a trap. -/
theorem fails_onState {t : Trap} {st' : State} (hc : M[a]? = some (.ref code))
    (hf : M[code]? = some (.builtin b)) (hb : b.perform code = Builtin.perform.onState x)
    (hx : x (running M D a R S) = .error (.trap t) st') (ht : t.word = "") :
    Fails (Shows (running M D a R S) input output) t.kind b.name (Shows st' input output) :=
  fails_of_raises hc (resolve_ref hf) rfl (raises_onState hb hx ht)

theorem fails_zeroBranch (hc : M[a]? = some (.ref code)) (hf : M[code]? = some (.builtin .zeroBranch)) :
    Fails (Shows (running M D a R []) input output) .stackUnderflow Builtin.zeroBranch.name
      (Shows (running M D a R []) input output) := by
  have hx : Control.zeroBranch (running M D a R []) =
      .error (.trap { kind := .stackUnderflow }) (running M D a R []) := rfl
  exact fails_onState hc hf rfl hx rfl

theorem fails_drop (hc : M[a]? = some (.ref code)) (hf : M[code]? = some (.builtin .drop)) :
    Fails (Shows (running M D a R []) input output) .stackUnderflow Builtin.drop.name
      (Shows (running M D a R []) input output) := by
  have hx : onStack Calculation.drop (running M D a R []) =
      .error (.trap { kind := .stackUnderflow }) (running M D a R []) := rfl
  exact fails_onState hc hf rfl hx rfl

/-- A reference to a definition enters its code and keeps the address after the reference. -/
theorem leads_docol (hc : M[a]? = some (.ref code)) (hf : M[code]? = some (.builtin .docol)) :
    Leads (Shows (running M D a R S) input output)
      (Shows (running M D (code.plus 1) (a.plus 1 :: R) S) input output) :=
  leads_withNext hc (resolve_ref hf) rfl rfl rfl

/-- EXIT goes back to the address on top of the return stack. -/
theorem leads_exit {r : Word} (hc : M[a]? = some (.builtin .exit)) :
    Leads (Shows (running M D a (r :: R) S) input output)
      (Shows (running M D r R S) input output) :=
  leads_withNext hc (resolve_prim _ _ _) rfl rfl rfl

end Cells

end Machine

end ForthMachine
