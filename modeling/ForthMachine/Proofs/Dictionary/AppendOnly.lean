import ForthMachine.Proofs.Dictionary.Chain
import ForthMachine.Proofs.Machine.Trail

namespace ForthMachine

open Memory State

/-- The word is held as the next free address, by an address or an integer. -/
def State.NextFree (st : State) (h : Word) : Prop :=
  ∃ d, st.memory[hereAddress]? = some d ∧ d.address? = some h

def State.HasRoom (st : State) : Prop := ∃ h, st.NextFree h ∧ 3 ≤ h.toInt ∧ h.toInt + 4 < Word.bound

/-- One cell holds one next free address, whether as an address or as an integer. -/
theorem State.NextFree.unique {st : State} {h h' : Word} (hn : st.NextFree h) (hn' : st.NextFree h') :
    h = h' := by
  obtain ⟨d, hd, hh⟩ := hn
  obtain ⟨d', hd', hh'⟩ := hn'
  cases hd.symm.trans hd'
  exact Option.some.inj (hh.symm.trans hh')

section Edits

variable {x y : Memory × Dictionary} {k : Nat} {d : Cell} {h a : Word}

/-- An edit writes to the system variables and to the cells that it takes. -/
theorem edit_outside (he : Edit x k y) (hd : x.1[hereAddress]? = some d) (hh : d.address? = some h)
    (ha : a ≠ hereAddress ∧ a ≠ latestAddress ∧ a ≠ stateAddress) (ho : Outside h k a) :
    y.1[a]? = x.1[a]? := by
  cases he with
  | mode M D c => exact getElem?_insert_ne _ _ (Ne.symm ha.2.2)
  | flags M D i f => rfl
  | cell D c hd' hh' =>
    cases hd.symm.trans hd'
    cases hh.symm.trans hh'
    have hne : h ≠ a := by simpa using ho 0 (by omega)
    change ((_ : Memory).insert hereAddress _)[a]? = _
    rw [getElem?_insert_ne _ _ (Ne.symm ha.1), getElem?_insert_ne _ _ hne]
  | header D name hd' hh' hl =>
    cases hd.symm.trans hd'
    cases hh.symm.trans hh'
    have h₀ : h ≠ a := by simpa using ho 0 (by omega)
    have h₁ : h + 1 ≠ a := ho 1 (by omega)
    have h₂ : h + 2 ≠ a := ho 2 (by omega)
    change ((_ : Memory).insert latestAddress _)[a]? = _
    rw [getElem?_insert_ne _ _ (Ne.symm ha.2.1), getElem?_insert_ne _ _ (Ne.symm ha.1),
      getElem?_insert_ne _ _ h₂, getElem?_insert_ne _ _ h₁, getElem?_insert_ne _ _ h₀]

/-- Edits one after another, by induction; each of them takes the cells after those of the one before. -/
theorem amends_outside (hm : Amends x k y) (hd : x.1[hereAddress]? = some d) (hh : d.address? = some h)
    (ha : a ≠ hereAddress ∧ a ≠ latestAddress ∧ a ≠ stateAddress) (ho : Outside h k a) :
    y.1[a]? = x.1[a]? := by
  induction hm generalizing d h with
  | refl x => rfl
  | @head x y z m n he _ ih =>
    obtain ⟨d', hd', hh', -⟩ := hereCell_of_edit he hd hh
    rw [ih hd' hh' ho.drop]
    exact edit_outside he hd hh ha (ho.mono (by omega))

end Edits

theorem Builtin.writes_eq_nil {b : Builtin} (hb : b.isStore = false) (st : State) : b.writes st = [] := by
  cases b <;> first | rfl | cases hb

namespace Machine

/-- None of the words that the step from `m` runs stores. -/
def StoreFree (m : Machine) : Prop := ∀ w b m₁, Runs m w (.builtin b) m₁ → b.isStore = false

/-- A run in which no step stores, and each has room for what it compiles. Its steps may succeed or
fail. -/
inductive Undisturbed (m : Machine) : Machine → Prop where
  | refl : Undisturbed m m
  | step {m₁ : Machine} : Undisturbed m m₁ → m₁.StoreFree → m₁.state.HasRoom →
      Undisturbed m (endState (step m₁))

variable {m m' : Machine} {d : Cell} {h a : Word}

/-- A step in which nothing is stored takes at most four of the free cells. -/
theorem amends_step (hs : m.StoreFree) :
    ∃ k, k ≤ 4 ∧ Amends m.state.contents k (endState (Machine.step m)).state.contents := by
  rcases settled_step m with hk | ⟨w, b, m₁, hr, hc, ho⟩
  · exact hk
  · -- a word that does not store writes nowhere
    rw [Builtin.writes_eq_nil (hs w b m₁ hr)] at ho
    have hcontents : (endState (Machine.step m)).state.contents = m.state.contents := by
      rw [← hc]
      refine Prod.ext ?_ ho.dictionary
      apply Std.ExtTreeMap.ext_getElem?
      exact fun a => ho.memory a List.not_mem_nil
    rw [hcontents]
    exact ⟨0, Nat.zero_le 4, .refl _⟩

/-- A step from a word that hands over to no other runs that word alone. -/
theorem storeFree_of_cell {b : Builtin} (hc : m.state.memory[m.state.ip]? = some (.builtin b))
    (hb : b.isStore = false) (he : b ≠ .execute) (hi : b ≠ .interpret) : m.StoreFree := by
  have honly {w : Word} {p : Primitive} {m₁ : Machine} (hr : Runs m w p m₁) : p = .builtin b := by
    induction hr with
    | first hc' hr =>
      cases hc.symm.trans hc'
      cases hr
      rfl
    | next _ hp _ ih =>
      subst ih
      rcases Builtin.state_of_handOver (perform_handOver hp) with ⟨h, -⟩ | ⟨h, -⟩
      · exact absurd h he
      · exact absurd h hi
  intro w b' m₁ hr
  rw [Primitive.builtin.inj (honly hr)]
  exact hb

/-- One step: where it writes, and what becomes of the next free address. -/
theorem step_appends (hd : m.state.memory[hereAddress]? = some d) (hh : d.address? = some h)
    (hs : m.StoreFree) :
    ∃ k d', k ≤ 4 ∧ (endState (Machine.step m)).state.memory[hereAddress]? = some d' ∧
      d'.address? = some (h.plus k) ∧ (d' = d ∨ d' = .addr (h.plus k)) ∧
      ∀ a, a ≠ hereAddress ∧ a ≠ latestAddress ∧ a ≠ stateAddress → Outside h 4 a →
        (endState (Machine.step m)).state.memory[a]? = m.state.memory[a]? := by
  obtain ⟨k, hk, hm⟩ := amends_step hs
  obtain ⟨d', hd', hh', hor⟩ := hereCell_of_amends hm hd hh
  exact ⟨k, d', hk, hd', hh', hor, fun a ha ho => amends_outside hm hd hh ha (ho.mono hk)⟩

/-- Below the next free address, and above the system variables, a step writes nothing. -/
theorem outside_of_below (ha : 3 ≤ a.toInt) (hlt : a.toInt < h.toInt) (hb : h.toInt + 4 < Word.bound) :
    (a ≠ hereAddress ∧ a ≠ latestAddress ∧ a ≠ stateAddress) ∧ Outside h 4 a := by
  have hne (k : Word) (hk : k.toInt < 3) : a ≠ k := by
    rintro rfl
    omega
  refine ⟨⟨hne _ (by decide), hne _ (by decide), hne _ (by decide)⟩, fun i hi he => ?_⟩
  have hint := Word.toInt_plus (a := h) (n := i) (by omega)
  rw [he] at hint
  omega

/-- A whole run, by induction on its steps. -/
theorem Undisturbed.keeps (hr : Undisturbed m m') (hn : m.state.NextFree h) :
    ∃ h', m'.state.NextFree h' ∧ h.toInt ≤ h'.toInt ∧
      ∀ a : Word, 3 ≤ a.toInt → a.toInt < h.toInt → m'.state.memory[a]? = m.state.memory[a]? := by
  induction hr with
  | refl => exact ⟨h, hn, Int.le_refl _, fun _ _ _ => rfl⟩
  | @step m₁ _ hs hroom ih =>
    obtain ⟨h₁, hn₁, hle, hkeep⟩ := ih
    obtain ⟨h₂, hn₂, -, hb⟩ := hroom
    obtain rfl := hn₁.unique hn₂
    obtain ⟨d, hd, hh⟩ := hn₁
    obtain ⟨k, d', hk, hd', hh', -, hout⟩ := step_appends hd hh hs
    have hint : (h₁.plus k).toInt = h₁.toInt + k := Word.toInt_plus (by omega)
    refine ⟨h₁.plus k, ⟨d', hd', hh'⟩, by omega, fun a ha hlt => ?_⟩
    obtain ⟨hsystem, hoff⟩ := outside_of_below ha (by omega : a.toInt < h₁.toInt) hb
    exact (hout a hsystem hoff).trans (hkeep a ha hlt)

/-- Code that lies below the next free address is the same after such a run. -/
theorem Undisturbed.holds (hr : Undisturbed m m') (hn : m.state.NextFree h) {cells : List Cell}
    (hc : m.state.memory.Holds a cells) (ha : 3 ≤ a.toInt) (hb : a.toInt + cells.length ≤ h.toInt) :
    m'.state.memory.Holds a cells := by
  obtain ⟨h', -, -, hkeep⟩ := hr.keeps hn
  intro i hi
  have hmax := Int64.toInt_lt h
  have hint := Word.toInt_plus (a := a) (n := i) (by unfold Word.bound; omega)
  rw [hkeep _ (by omega) (by omega)]
  exact hc i hi

end Machine

namespace State

/-- Cells that are compiled one after another lie one after another. -/
theorem forM_comma {st : State} {d : Cell} {h : Word} {cs : List Cell}
    (hd : st.memory[hereAddress]? = some d) (hh : d.address? = some h)
    (ho : Outside h cs.length hereAddress) :
    cs.forM comma st = .ok () { st with
      memory := if cs = [] then st.memory else st.memory.append h cs } := by
  induction cs generalizing st d h with
  | nil => rfl
  | cons c cs ih =>
    have hone : comma c st = .ok () { st with memory := st.memory.append h [c] } := comma_of_here hd hh
    have hrest : Outside (h.plus 1) cs.length hereAddress := by
      apply Outside.drop
      simpa [Nat.add_comm] using ho
    rw [List.forM_eq_forM, List.forM_cons, Action.bind_apply, hone]
    change cs.forM comma _ = _
    rw [ih (append_here _ _ _) rfl hrest, if_neg (List.cons_ne_nil c cs)]
    by_cases hcs : cs = []
    · subst hcs
      rfl
    · rw [if_neg hcs]
      have happend : (st.memory.append h [c]).append (h.plus 1) cs = st.memory.append h (c :: cs) :=
        @append_append st.memory h [c] cs (by simpa [Nat.add_comm] using ho)
      simp only [happend]

end State

namespace Machine

/-- Compiled code is append-only: what one step does to memory, what a run of such steps does, and what
becomes of cells that are compiled one after another. -/
theorem compiled_code_stays :
    (∀ (m : Machine) (d : Cell) (h : Word), m.state.memory[hereAddress]? = some d →
      d.address? = some h → m.StoreFree →
      (∀ a, a ≠ hereAddress ∧ a ≠ latestAddress ∧ a ≠ stateAddress → Outside h 4 a →
        (endState (step m)).state.memory[a]? = m.state.memory[a]?) ∧
      ((endState (step m)).state.memory[hereAddress]? = some d ∨
        ∃ k, k ≤ 4 ∧ (endState (step m)).state.memory[hereAddress]? = some (.addr (h.plus k)))) ∧
    (∀ (m m' : Machine) (h : Word), Undisturbed m m' → m.state.NextFree h →
      (∃ h', m'.state.NextFree h' ∧ h.toInt ≤ h'.toInt) ∧
      (∀ a : Word, 3 ≤ a.toInt → a.toInt < h.toInt → m'.state.memory[a]? = m.state.memory[a]?) ∧
      ∀ (a : Word) (cells : List Cell), 3 ≤ a.toInt → a.toInt + cells.length ≤ h.toInt →
        m.state.memory.Holds a cells → m'.state.memory.Holds a cells) ∧
    ∀ (st : State) (d : Cell) (h : Word) (cs : List Cell), st.memory[hereAddress]? = some d →
      d.address? = some h → 3 ≤ h.toInt → h.toInt + cs.length < Word.bound →
      ∃ st', cs.forM comma st = .ok () st' ∧ st'.memory.Holds h cs ∧
        st'.memory[hereAddress]? = some (if cs = [] then d else .addr (h.plus cs.length)) := by
  refine ⟨fun m d h hd hh hs => ?_, fun m m' h hr hn => ?_, fun st d h cs hd hh hthree hb => ?_⟩
  · obtain ⟨k, d', hk, hd', -, hor, hout⟩ := step_appends hd hh hs
    refine ⟨hout, ?_⟩
    rcases hor with rfl | rfl
    · exact .inl hd'
    · exact .inr ⟨k, hk, hd'⟩
  · obtain ⟨h', hn', hle, hkeep⟩ := hr.keeps hn
    exact ⟨⟨h', hn', hle⟩, hkeep, fun a cells ha hb hc => hr.holds hn hc ha hb⟩
  · have hfree : Free h cs.length := free_of_three_le hthree (Int.le_of_lt hb)
    refine ⟨_, forM_comma hd hh hfree.here, ?_, ?_⟩
    · intro i hi
      have hne : cs ≠ [] := List.ne_nil_of_length_pos (by omega)
      simp only [if_neg hne]
      exact append_inside _ hfree.count hfree.here hi
    · by_cases hcs : cs = []
      · simp only [if_pos hcs]
        exact hd
      · simp only [if_neg hcs]
        exact append_here _ _ _

end Machine

namespace IntegerHere

/-- A machine about to compile a cell; an integer is held as the next free address. -/
def machine : Machine where
  state := {
    ip := 10
    nip := 11
    memory := load (load ∅ hereAddress [.int 40, .nil, .int 1]) 10 [.builtin .comma, .builtin .exit]
    stack := [.int 7] }

end IntegerHere

namespace Machine

open IntegerHere

theorem compiled_cell_stays :
    (endState (step machine)).state.memory[hereAddress]? ≠ some (.int 40) ∧
      (endState (step machine)).state.memory[(10 : Word)]? = machine.state.memory[(10 : Word)]? ∧
      Undisturbed machine (endState (step machine)) ∧
      (endState (step machine)).state.memory.Holds 10 [.builtin .comma, .builtin .exit] ∧
      ∃ st', [Cell.int 1, .int 2].forM comma machine.state = .ok () st' ∧
        st'.memory.Holds 40 [.int 1, .int 2] ∧ st'.memory[hereAddress]? = some (.addr 42) := by
  obtain ⟨hstep, hrun, hlist⟩ := compiled_code_stays
  have hhere : machine.state.memory[hereAddress]? = some (.int 40) := by decide
  have hnext : machine.state.NextFree 40 := ⟨.int 40, hhere, rfl⟩
  have hfree : machine.StoreFree := storeFree_of_cell (b := .comma) rfl rfl (by decide) (by decide)
  have hroom : machine.state.HasRoom := ⟨40, hnext, by decide, by decide⟩
  have hundisturbed : Undisturbed machine (endState (step machine)) := .step .refl hfree hroom
  refine ⟨by decide, (hstep machine (.int 40) 40 hhere rfl hfree).1 10 (by decide) ?_, hundisturbed, ?_,
    hlist machine.state (.int 40) 40 [.int 1, .int 2] hhere rfl (by decide) (by decide)⟩
  · unfold Outside
    decide
  · refine (hrun _ _ 40 hundisturbed hnext).2.2 10 _ (by decide) (by decide) ?_
    unfold Memory.Holds
    decide

/-- Without cells to compile an integer stays as the next free address; no address is written. -/
theorem integer_stays_as_next_free :
    ¬∀ (st : State) (d : Cell) (h : Word) (cs : List Cell), st.memory[hereAddress]? = some d →
      d.address? = some h → 3 ≤ h.toInt → h.toInt + cs.length < Word.bound →
      ∃ st', cs.forM comma st = .ok () st' ∧ st'.memory.Holds h cs ∧
        st'.memory[hereAddress]? = some (.addr (h.plus cs.length)) := by
  intro hall
  obtain ⟨st', hrun, -, hhere⟩ :=
    hall { memory := load ∅ hereAddress [.int 10] } (.int 10) 10 [] rfl rfl (by decide) (by decide)
  cases hrun
  exact absurd hhere (by decide)

end Machine

end ForthMachine
