import ForthMachine.Proofs.Machine.Dispatch

namespace ForthMachine

open Memory

namespace Memory

variable {M M' : Memory} {target source a : Word} {c : Cell} {k n : Nat}

/-- How far a target lies above its source, or 0 if it does not. A remainder modulo 0 is the number
itself, so that 0 as a period means no repetition. -/
def gap (target source : Word) : Nat := (target.toInt - source.toInt).toNat

/-- From one memory to another, `n` cells have been copied and nothing else has changed. -/
structure Copied (M M' : Memory) (target source : Word) (n : Nat) : Prop where
  cells : ∀ i, i < n → M'[target.plus i]? = M[source.plus (i % gap target source)]?
  frame : ∀ a, Outside target n a → M'[a]? = M[a]?

theorem copied_zero : Copied M M target source 0 :=
  ⟨fun _ hi => absurd hi (Nat.not_lt_zero _), fun _ _ => rfl⟩

/-- A target that does not lie above its source is no reason for a repetition. -/
theorem mod_gap_of_le (h : target ≤ source) (i : Nat) : i % gap target source = i := by
  have hgap : gap target source = 0 := by
    have hle := Int64.le_iff_toInt_le.mp h
    unfold gap
    omega
  rw [hgap, Nat.mod_zero]

theorem mod_gap_of_lt {i : Nat} (h : source.toInt + i < target.toInt) : i % gap target source = i := by
  apply Nat.mod_eq_of_lt
  unfold gap
  omega

/-- The cell that is copied next: it has been copied before, one period below, or it is still the old
one. -/
theorem Copied.read (h : Copied M M' target source n) (hs : source.toInt + n < Word.bound)
    (ht : target.toInt + n ≤ Word.bound) :
    M'[source.plus n]? = M[source.plus (n % gap target source)]? := by
  have hint := Word.toInt_plus hs
  by_cases hg : 0 < gap target source ∧ gap target source ≤ n
  · have hsum : target.toInt = source.toInt + gap target source := by
      unfold gap at hg ⊢
      omega
    have hsame : source.plus n = target.plus (n - gap target source) := by
      apply Int64.toInt_inj.mp
      rw [hint, Word.toInt_plus (by omega)]
      omega
    calc M'[source.plus n]?
      _ = M'[target.plus (n - gap target source)]? := by rw [hsame]
      _ = M[source.plus ((n - gap target source) % gap target source)]? := h.cells _ (by omega)
      _ = M[source.plus (n % gap target source)]? := by rw [Nat.mod_eq_sub_mod hg.2]
  · -- the target starts above this cell, or the copy has passed below it
    have hbeyond : gap target source = 0 ∨ n < gap target source := by omega
    have hmod : n % gap target source = n := by
      rcases hbeyond with hzero | hlt
      · rw [hzero, Nat.mod_zero]
      · exact Nat.mod_eq_of_lt hlt
    have hout : Outside target n (source.plus n) := by
      intro i hi he
      have hcell := Word.toInt_plus (a := target) (n := i) (by omega)
      rw [he, hint] at hcell
      unfold gap at hbeyond
      omega
    rw [hmod, h.frame _ hout]

/-- One more cell is copied, from what was there or from a copy of it. -/
theorem Copied.insert (h : Copied M M' target source n) (ht : target.toInt + n < Word.bound)
    (hc : M[source.plus (n % gap target source)]? = some c) :
    Copied M (Std.ExtTreeMap.insert M' (target.plus n) c) target source (n + 1) where
  cells i hi := by
    have hmin := Int64.le_toInt target
    have hcount : n < Word.count := by
      unfold Word.bound at ht
      unfold Word.count
      omega
    by_cases hin : i = n
    · rw [hin, getElem?_insert_eq, hc]
    · rw [getElem?_insert_ne _ _ (Word.plus_ne_plus target hcount (by omega) (Ne.symm hin))]
      exact h.cells i (by omega)
  frame a ha := by
    rw [getElem?_insert_ne _ _ (ha n (Nat.lt_succ_self n))]
    exact h.frame a (ha.mono (Nat.le_succ n))

/-- One more cell: it is copied after all others. -/
theorem copyUp_succ (M : Memory) (target source : Word) (n : Nat) :
    M.copyUp target source (n + 1) =
      match M.copyUp target source n with
      | (M', some a) => (M', some a)
      | (M', none) =>
        match M'[source.plus n]? with
        | none => (M', some (source.plus n))
        | some c => (Std.ExtTreeMap.insert M' (target.plus n) c, none) := by
  induction n generalizing M target source with
  | zero =>
    cases hc : M[source]? <;> simp [copyUp, hc]
  | succ n ih =>
    have hplus (b : Word) : (b + 1).plus n = b.plus (n + 1) := by
      rw [Word.add_one, Word.plus_plus, Nat.add_comm]
    have hunfold (n : Nat) : M.copyUp target source (n + 1) =
        match M[source]? with
        | none => (M, some source)
        | some c => copyUp (Std.ExtTreeMap.insert M target c) (target + 1) (source + 1) n := rfl
    rw [hunfold, hunfold]
    cases M[source]? with
    | none => rfl
    | some c =>
      simp only [ih, hplus]

/-- The loop, as long as it finds its source cells written. -/
theorem copyUp_copied (hs : source.toInt + n ≤ Word.bound) (ht : target.toInt + n ≤ Word.bound)
    (hw : ∀ i, i < n → M[source.plus (i % gap target source)]? ≠ none) :
    ∃ M', M.copyUp target source n = (M', none) ∧ Copied M M' target source n := by
  induction n with
  | zero => exact ⟨M, rfl, copied_zero⟩
  | succ n ih =>
    obtain ⟨M', hcopy, hinv⟩ := ih (by omega) (by omega) fun i hi => hw i (by omega)
    obtain ⟨c, hc⟩ := Option.ne_none_iff_exists'.mp (hw n (Nat.lt_succ_self n))
    have hread : M'[source.plus n]? = some c := (hinv.read (by omega) (by omega)).trans hc
    refine ⟨_, ?_, hinv.insert (by omega) hc⟩
    simp only [copyUp_succ, hcopy, hread]

/-- The loop ends at the first source cell that it finds unwritten, however many were to come. -/
theorem copyUp_stops (hcopy : M.copyUp target source k = (M', none)) (hk : k < n)
    (hnone : M'[source.plus k]? = none) :
    M.copyUp target source n = (M', some (source.plus k)) := by
  induction n with
  | zero => exact absurd hk (Nat.not_lt_zero k)
  | succ n ih =>
    rw [copyUp_succ]
    by_cases hkn : k = n
    · subst hkn
      simp only [hcopy, hnone]
    · simp only [ih (by omega)]

end Memory

namespace Storage

open State

variable {st : State} {count source target : Cell} {rest : Stack Cell} {t s u : Word}

/-- What MOVE does with its operands: all three are taken, and the cells are copied. -/
theorem move_apply (hst : st.stack = count :: source :: target :: rest) (ht : target.address? = some t)
    (hs : source.address? = some s) (hu : count.address? = some u) :
    move st =
      match st.memory.copyUp t s u.toInt.toNat with
      | (M, none) => .ok () { st with ip := st.nip, nip := st.nip + 1, memory := M, stack := rest }
      | (M, some a) =>
        .error (.atAddress .unwrittenAddress a) { st with memory := M, stack := rest } := by
  have hneed : Operand.need 3 (count :: source :: target :: rest) =
      .ok () (count :: source :: target :: rest) := by
    rw [Operand.need_apply, if_neg (by simp)]
  have htake : takeMove (count :: source :: target :: rest) = .ok (t, s, u) rest := by
    simp only [takeMove, Action.bind_apply, hneed, Operand.cell_cons, ht, hs, hu, Action.pure_apply]
  simp only [move, Action.bind_apply, onStack_apply, hst, htake, Action.get_apply, Action.set_apply]
  obtain ⟨M, unwritten⟩ := st.memory.copyUp t s u.toInt.toNat
  cases unwritten <;> rfl

end Storage

namespace Machine

open State

variable {m m₁ : Machine} {count source target : Cell} {rest : Stack Cell} {w t s u : Word} {M : Memory}

def Moves (m : Machine) (rest : Stack Cell) (M : Memory) : Prop :=
  ∃ m', step m = .ok () m' ∧ m'.state = { m.state with
    ip := m.state.ip + 1, nip := m.state.ip + 2, memory := M, stack := rest }

/-- A step in which MOVE stops at an unwritten address; by then memory is the given one. -/
def StopsMoving (m : Machine) (rest : Stack Cell) (a : Word) (M : Memory) : Prop :=
  ∃ trap m', step m = .error trap m' ∧ trap.kind = .unwrittenAddress ∧ trap.address = a ∧
    trap.word = "MOVE" ∧
    m'.state = { m.state with nip := m.state.ip + 1, memory := M, stack := rest }

/-- MOVE goes through when the copying does. -/
theorem moves_of_copyUp (hr : Runs m w (.builtin .move) m₁)
    (hst : m₁.state.stack = count :: source :: target :: rest) (ht : target.address? = some t)
    (hs : source.address? = some s) (hu : count.address? = some u)
    (hcopy : m.state.memory.copyUp t s u.toInt.toNat = (M, none)) : Moves m rest M := by
  have hstate := state_of_runs hr
  have hmove := Storage.move_apply hst ht hs hu
  rw [show m₁.state.memory = m.state.memory by rw [hstate], hcopy] at hmove
  have hperform : Builtin.move.perform w m₁ = .ok none { m₁ with
      state := { m₁.state with
        ip := m₁.state.nip, nip := m₁.state.nip + 1, memory := M, stack := rest } } := by
    change Builtin.perform.onState Storage.move m₁ = _
    rw [Builtin.perform_onState_apply, hmove]
  have htwo : m.state.ip + 1 + 1 = m.state.ip + 2 := Int64.add_assoc _ _ _
  refine ⟨_, step_of_runs_performs hr hperform, ?_⟩
  simp only [noteStack]
  rw [hstate, htwo]

/-- MOVE stops where the copying does. -/
theorem stopsMoving_of_copyUp {a : Word} (hr : Runs m w (.builtin .move) m₁)
    (hst : m₁.state.stack = count :: source :: target :: rest) (ht : target.address? = some t)
    (hs : source.address? = some s) (hu : count.address? = some u)
    (hcopy : m.state.memory.copyUp t s u.toInt.toNat = (M, some a)) : StopsMoving m rest a M := by
  have hstate := state_of_runs hr
  have hmove := Storage.move_apply hst ht hs hu
  rw [show m₁.state.memory = m.state.memory by rw [hstate], hcopy] at hmove
  have hperform : Builtin.move.perform w m₁ =
      .error (.atAddress .unwrittenAddress a) { m₁ with
        state := { m₁.state with memory := M, stack := rest } } := by
    change Builtin.perform.onState Storage.move m₁ = _
    rw [Builtin.perform_onState_apply, hmove]
  refine ⟨_, _, step_of_runs_raises hr hperform rfl, rfl, rfl, rfl, ?_⟩
  simp only
  rw [hstate]

/-- A MOVE, wherever in a step it is run, by the position of its target. Below its source or behind it, the
target becomes what the source was. Above the start of its source and inside it, the target becomes the
cells up to its own start, over and over again. No other cell changes. The first source cell that is unwritten
and that the copy does not write stops it there. -/
theorem move_copies_lowest_first (hr : Runs m w (.builtin .move) m₁)
    (hst : m₁.state.stack = count :: source :: target :: rest) (ht : target.address? = some t)
    (hs : source.address? = some s) (hu : count.address? = some u)
    (hns : s.toInt + u.toInt ≤ Word.bound) (hnt : t.toInt + u.toInt ≤ Word.bound) :
    (u ≤ 0 → Moves m rest m.state.memory) ∧
    (t ≤ s ∨ s.toInt + u.toInt ≤ t.toInt →
      (∀ i, i < u.toInt.toNat → m.state.memory[s.plus i]? ≠ none) →
      ∃ M, Moves m rest M ∧
        (∀ i, i < u.toInt.toNat → M[t.plus i]? = m.state.memory[s.plus i]?) ∧
        ∀ a, Outside t u.toInt.toNat a → M[a]? = m.state.memory[a]?) ∧
    (s < t → t.toInt < s.toInt + u.toInt →
      (∀ i, i < gap t s → m.state.memory[s.plus i]? ≠ none) →
      ∃ M, Moves m rest M ∧
        (∀ i, i < u.toInt.toNat → M[t.plus i]? = m.state.memory[s.plus (i % gap t s)]?) ∧
        ∀ a, Outside t u.toInt.toNat a → M[a]? = m.state.memory[a]?) ∧
    ∀ k, k < u.toInt.toNat → t ≤ s ∨ s.toInt + k < t.toInt →
      (∀ i, i < k → m.state.memory[s.plus i]? ≠ none) → m.state.memory[s.plus k]? = none →
      ∃ M, StopsMoving m rest (s.plus k) M ∧
        (∀ i, i < k → M[t.plus i]? = m.state.memory[s.plus i]?) ∧
        ∀ a, Outside t k a → M[a]? = m.state.memory[a]? := by
  -- a negative count leaves no cells, so these bounds hold whatever its sign is
  have hbs : s.toInt + u.toInt.toNat ≤ Word.bound := by
    have hmax := Int64.toInt_lt s
    unfold Word.bound at hns ⊢
    omega
  have hbt : t.toInt + u.toInt.toNat ≤ Word.bound := by
    have hmax := Int64.toInt_lt t
    unfold Word.bound at hnt ⊢
    omega
  refine ⟨fun hle => ?_, fun hapart hw => ?_, fun hlt hin hw => ?_, fun k hk hapart hw hnone => ?_⟩
  · have hzero : u.toInt.toNat = 0 := by
      have hint : u.toInt ≤ 0 := Int64.le_iff_toInt_le.mp hle
      omega
    apply moves_of_copyUp hr hst ht hs hu
    rw [hzero]
    rfl
  · have hmod (i : Nat) (hi : i < u.toInt.toNat) : i % gap t s = i := by
      rcases hapart with hle | hbehind
      · exact mod_gap_of_le hle i
      · exact mod_gap_of_lt (by omega)
    obtain ⟨M, hcopy, hcopied⟩ := copyUp_copied (M := m.state.memory)
      hbs hbt fun i hi => by rw [hmod i hi]; exact hw i hi
    refine ⟨M, moves_of_copyUp hr hst ht hs hu hcopy, fun i hi => ?_, hcopied.frame⟩
    rw [hcopied.cells i hi, hmod i hi]
  · have hpos : 0 < gap t s := by
      have hint := Int64.lt_iff_toInt_lt.mp hlt
      unfold gap
      omega
    -- every source cell is one of those below the target, or a copy of one
    obtain ⟨M, hcopy, hcopied⟩ := copyUp_copied (M := m.state.memory)
      hbs hbt fun i _ => hw _ (Nat.mod_lt i hpos)
    exact ⟨M, moves_of_copyUp hr hst ht hs hu hcopy, hcopied.cells, hcopied.frame⟩
  · have hmod (i : Nat) (hi : i ≤ k) : i % gap t s = i := by
      rcases hapart with hle | hbelow
      · exact mod_gap_of_le hle i
      · exact mod_gap_of_lt (by omega)
    have hks : s.toInt + k ≤ Word.bound := by omega
    have hkt : t.toInt + k ≤ Word.bound := by omega
    obtain ⟨M, hcopy, hcopied⟩ := copyUp_copied (M := m.state.memory) hks hkt fun i hi => by
      rw [hmod i (by omega)]
      exact hw i hi
    have hread : M[s.plus k]? = none := by
      rw [hcopied.read (by omega) (by omega), hmod k (Nat.le_refl k), hnone]
    refine ⟨M, stopsMoving_of_copyUp hr hst ht hs hu (copyUp_stops hcopy hk hread), fun i hi => ?_,
      hcopied.frame⟩
    rw [hcopied.cells i hi, hmod i (by omega)]

end Machine

namespace ThreeCells

open Machine

def machine (target count : Word) : Machine where
  state := {
    ip := 100
    nip := 101
    memory := load (load ∅ 10 [.int 1, .int 2, .int 3]) 100 [.builtin .execute, .builtin .move]
    stack := [.addr 101, .int count, .addr 10, .addr target] }

/-- MOVE is reached through EXECUTE, which has taken its address from the stack. -/
theorem runs_machine (target count : Word) : ∃ m₁, Runs (machine target count) 101 (.builtin .move) m₁ ∧
    m₁.state.stack = [.int count, .addr 10, .addr target] := by
  have hfirst : Runs (machine target count) 100 (.builtin .execute)
      ((machine target count).begin (.builtin .execute)) := .first (c := .builtin .execute) rfl rfl
  have hmove : (machine target count).state.memory[(101 : Word)]? = some (.builtin .move) := rfl
  exact ⟨_, hfirst.next rfl hmove, rfl⟩

end ThreeCells

namespace Machine

open ThreeCells

/-- Two of the three cells are copied two and a half times; of five cells only three can be copied. -/
theorem move_repeats_two_cells :
    (∃ M, Moves (machine 12 5) [] M ∧ M.Holds 12 [.int 1, .int 2, .int 1, .int 2, .int 1]) ∧
    ∃ M, StopsMoving (machine 20 5) [] 13 M ∧ M.Holds 20 [.int 1, .int 2, .int 3] ∧ M[(23 : Word)]? = none := by
  obtain ⟨m₁, hr, hst⟩ := runs_machine 12 5
  obtain ⟨m₂, hr', hst'⟩ := runs_machine 20 5
  obtain ⟨-, -, hover, -⟩ := move_copies_lowest_first hr hst rfl rfl rfl (by decide) (by decide)
  obtain ⟨-, -, -, hstop⟩ := move_copies_lowest_first hr' hst' rfl rfl rfl (by decide) (by decide)
  obtain ⟨M, hmoves, hcells, -⟩ := hover (by decide) (by decide) (by decide)
  obtain ⟨M', hstops, hcells', hframe⟩ := hstop 3 (by decide) (.inr (by decide)) (by decide) (by decide)
  refine ⟨⟨M, hmoves, fun i hi => (hcells i hi).trans ?_⟩, M', hstops, fun i hi => (hcells' i hi).trans ?_,
    (hframe 23 ?_).trans (by decide)⟩
  · revert i
    decide
  · revert i
    decide
  · unfold Outside
    decide

end Machine

end ForthMachine
