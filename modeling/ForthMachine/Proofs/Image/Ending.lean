import ForthMachine.Proofs.Image.Compilation
import ForthMachine.Proofs.Machine.Atomicity

namespace ForthMachine

open Memory State

namespace Machine

variable {m m' m₁ : Machine} {t : Trap} {quit : Word} {M : Memory}

/-- A finished run ends with a step that fails for one of two reasons. -/
theorem reaches_of_finished {n : Nat} (h : m.run n = (.finished, m')) :
    ∃ m₁ t, Reaches m m₁ ∧ step m₁ = .error t m' ∧ (t.kind = .bye ∨ t.kind = .endOfInput) := by
  induction n generalizing m with
  | zero => cases h
  | succ n ih =>
    rw [Machine.run] at h
    cases hs : step m with
    | ok u m₁ =>
      rw [hs] at h
      obtain ⟨m₂, t, hr, hstep, hk⟩ := ih h
      exact ⟨m₂, t, .head hs hr, hstep, hk⟩
    | error t m₁ =>
      rw [hs] at h
      by_cases hk : t.kind = .bye ∨ t.kind = .endOfInput
      · simp only [if_pos hk] at h
        cases h
        exact ⟨m, t, .refl m, hs, hk⟩
      · simp only [if_neg hk] at h
        cases h

/-- A step asks to stop, or finds the input at its end, only in a primitive. -/
theorem resolves_of_ending (h : step m = .error t m') (hk : t.kind = .bye ∨ t.kind = .endOfInput) :
    m.Resolves := by
  have hstops := stops_of_step h
  generalize t.kind = kind, m'.state = st at hstops hk
  cases hstops with
  | unwritten _ => rcases hk with hk | hk <;> cases hk
  | @unresolved c t _ hr =>
    rw [kind_of_resolve hr] at hk
    rcases hk with hk | hk <;> cases hk
  | raised ht _ => exact ht.resolves
  | misdirected ht _ _ => exact ht.resolves

/-- The branch back to the start of the loop succeeds. -/
theorem step_branch (hl : Loop quit m.state.memory) (hip : m.state.ip = quit.plus 1) :
    ∃ m', step m = .ok () m' := by
  obtain ⟨i, b, hcells, -, hb⟩ := hl.cells
  have href : m.state.memory[m.state.ip]? = some (.ref b) := by
    rw [hip]
    exact hcells 1 (by simp)
  have hoffset : m.state.memory[m.state.ip + 1]? = some (.int (-2)) := by
    rw [hip, Word.plus_add_one]
    exact hcells 2 (by simp)
  have hbranch : ∃ st, Control.branch (m.begin (.builtin .branch)).state = .ok () st := by
    have hnip : (m.begin (.builtin .branch)).state.nip = m.state.ip + 1 := rfl
    have hfetch : fetch (m.state.ip + 1) (m.begin (.builtin .branch)).state =
        .ok (.int (-2)) (m.begin (.builtin .branch)).state := fetch_of_getElem? hoffset
    simp only [Control.branch, Action.bind_apply, Action.get_apply, hnip, hfetch]
    exact ⟨_, rfl⟩
  obtain ⟨st, hst⟩ := hbranch
  have hperform : (Primitive.builtin .branch).perform b (m.begin (.builtin .branch)) =
      .ok none { m.begin (.builtin .branch) with state := st } := by
    change Builtin.perform.onState Control.branch _ = _
    rw [Builtin.perform_onState_apply, hst]
  refine ⟨Machine.noteStack { m.begin (.builtin .branch) with state := st }, ?_⟩
  rw [step_eq_of_resolve href (resolve_ref hb), invoke_of_perform hperform]

/-- A step in the loop that ends a run is the one at its start. -/
theorem ip_of_ending (hl : Loop quit m.state.memory) (h : step m = .error t m')
    (hk : t.kind = .bye ∨ t.kind = .endOfInput) :
    m.state.ip = quit ∨ ∀ i, i < 3 → m.state.ip ≠ quit.plus i := by
  by_cases hin : ∃ i, i < 3 ∧ m.state.ip = quit.plus i
  · obtain ⟨i, hi, hip⟩ := hin
    match i with
    | 0 =>
      rw [Word.plus_zero] at hip
      exact .inl hip
    | 1 =>
      obtain ⟨m₁, hm₁⟩ := step_branch hl hip
      rw [h] at hm₁
      cases hm₁
    | 2 =>
      obtain ⟨j, b, hcells, -, -⟩ := hl.cells
      obtain ⟨c, w, p, hc, hr⟩ := resolves_of_ending h hk
      have hoffset : m.state.memory[m.state.ip]? = some (.int (-2)) := by
        rw [hip]
        exact hcells 2 (by simp)
      cases hoffset.symm.trans hc
      cases hr
  · exact .inr fun i hi hip => hin ⟨i, hi, hip⟩

end Machine

namespace Image

open Machine

/-- A finished evaluation leaves the machine at the cell whose step ended it. With the outer interpreter
intact that is the start of its loop, or a cell outside of the loop in a word that the source has run. -/
theorem evaluation_stays_where_it_ends {img : Image} {fuel : Nat} {source : Source} {m m' : Machine}
    (h : img.evaluate fuel source m = (.finished, m')) (hl : Loop img.quit m'.state.memory) :
    (∃ m₁ t m₂, Reaches (img.enter source m) m₁ ∧ step m₁ = .error t m₂ ∧
      (t.kind = .bye ∨ t.kind = .endOfInput) ∧ m₁.state.ip = m'.state.ip ∧ m₂.state = m'.state) ∧
    m'.state.nip = m'.state.ip + 1 ∧ m'.console.input = m.console.input ∧
    (m'.state.ip = img.quit ∧ m'.state.nip = img.quit + 1 ∨
      ∀ i, i < 3 → m'.state.ip ≠ img.quit.plus i) := by
  obtain ⟨m₂, hrun, rfl⟩ : ∃ m₂, (img.enter source m).run fuel = (.finished, m₂) ∧
      m' = { m₂ with console.input := m.console.input } := by
    refine ⟨((img.enter source m).run fuel).2, Prod.ext (congrArg Prod.fst h :) rfl, ?_⟩
    exact (congrArg Prod.snd h).symm
  obtain ⟨m₁, t, hreach, hstep, hk⟩ := reaches_of_finished hrun
  have hframe := frame_of_step hstep
  have hnip : m₂.state.nip = m₁.state.ip + 1 := hframe.nip (resolves_of_ending hstep hk)
  have hcontents : m₂.state.contents = m₁.state.contents := by
    refine hframe.contents.resolve_right fun hfault => ?_
    rcases hk with hk | hk <;> rw [hk] at hfault <;> rcases hfault.1 with hf | hf | hf <;> cases hf
  have hmemory : m₂.state.memory = m₁.state.memory := (Prod.mk.inj hcontents).1
  have hloop : Loop img.quit m₁.state.memory := hmemory ▸ hl
  refine ⟨⟨m₁, t, m₂, hreach, hstep, hk, hframe.ip.symm, rfl⟩, ?_, rfl, ?_⟩
  · rw [hframe.ip]
    exact hnip
  · change m₂.state.ip = _ ∧ m₂.state.nip = _ ∨ ∀ i, i < 3 → m₂.state.ip ≠ _
    rw [hnip, hframe.ip]
    rcases ip_of_ending hloop hstep hk with hip | hout
    · exact .inl ⟨hip, by rw [hip]⟩
    · exact .inr hout

end Image

namespace ByeInDefinition

open Blueprint Machine

def installed : Machine where
  state := idle Image.defaultBase parts

def ended : Machine.Outcome × Machine :=
  (⟨16, 228⟩ : Image).evaluate 8 { rest := ": T BYE ; T".toList } installed

def resumed : Machine := { ended.2 with console.input := some { rest := "1 .".toList } }

theorem ended_finished :
    (ended.1 = .finished ∧ ended.2.state.ip = 431) ∧
      (ended.2.state.memory[(228 : Word)]? = some (.ref 215) ∧
        ended.2.state.memory[(229 : Word)]? = some (.ref 123) ∧
        ended.2.state.memory[(230 : Word)]? = some (.int (-2)) ∧
        ended.2.state.memory[(215 : Word)]? = some (.builtin .interpret) ∧
        ended.2.state.memory[(123 : Word)]? = some (.builtin .branch)) ∧
      (resumed.run 1).1 = .finished ∧
      (resumed.run 1).2.console.input = some { rest := "1 .".toList } := by
  decide +kernel

theorem loop_ended : Loop 228 ended.2.state.memory := by
  obtain ⟨-, ⟨hfirst, hsecond, hthird, hinterpret, hbranch⟩, -⟩ := ended_finished
  refine ⟨215, 123, ?_, hinterpret, hbranch⟩
  have hplus : Word.plus 228 1 = 229 ∧ Word.plus 229 1 = 230 := by decide
  rw [holds_cons, holds_cons, holds_singleton, hplus.1, hplus.2]
  exact ⟨hfirst, hsecond, hthird⟩

end ByeInDefinition

namespace Image

open Blueprint ByeInDefinition Machine

/-- After an evaluation in which a definition asks to stop, the machine is in that definition, and on
another input it stops at once without reading. -/
theorem bye_in_definition_stays_there :
    (∃ fuel m, install fuel 16 {} = (.ok ⟨16, 228⟩, m) ∧ m.state = installed.state) ∧
      (⟨16, 228⟩ : Image).evaluate 8 { rest := ": T BYE ; T".toList } installed = (.finished, ended.2) ∧
      Loop 228 ended.2.state.memory ∧ ended.2.state.ip = 431 ∧ ended.2.state.nip = 432 ∧
      (∀ i, i < 3 → ended.2.state.ip ≠ Word.plus 228 i) ∧
      (resumed.run 1).1 = .finished ∧ (resumed.run 1).2.console.input = resumed.console.input := by
  obtain ⟨⟨hfinished, hip⟩, -, hrun, hinput⟩ := ended_finished
  have hsplit (p : Outcome × Machine) (h : p.1 = .finished) : p = (.finished, p.2) := Prod.ext h rfl
  have hevaluate : (⟨16, 228⟩ : Image).evaluate 8 { rest := ": T BYE ; T".toList } installed =
      (.finished, ended.2) := hsplit ended hfinished
  obtain ⟨-, hnip, -, hplace⟩ := evaluation_stays_where_it_ends hevaluate loop_ended
  have hbase : isValidBase defaultBase = true := by decide
  obtain ⟨n, m, hinstall, hstate, -⟩ := install_apply hbase {}
  rw [← image, image_default] at hinstall
  refine ⟨⟨n, m, hinstall n (Nat.le_refl n), hstate⟩, hevaluate, loop_ended, hip, ?_, ?_, hrun, hinput⟩
  · rw [hnip, hip]
    rfl
  · refine hplace.resolve_left fun hquit => ?_
    rw [hip] at hquit
    exact absurd hquit.1 (by decide)

end Image

end ForthMachine
