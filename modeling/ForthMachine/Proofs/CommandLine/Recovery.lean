import ForthMachine.CommandLine.Session
import ForthMachine.Proofs.Image.Installation
import ForthMachine.Proofs.Machine.Reading

/-!
Recovery from errors. A session that listens reports a trap and goes back to the outer interpreter, whose
first step reads a word. So the input is shorter when the next trap is reported, unless nothing was left of
it: at the end of the input the session ends, but a device that fails there is asked again and again.
-/

namespace ForthMachine

namespace CommandLine

open Blueprint Machine

/-- An error that a session has reported while it listened, with the number of characters left then. -/
structure Report where
  trap : Trap
  left : Nat

/-- The later of two reports: something has been read between them, or nothing was left and the device
failed. -/
def Report.Follows (ending : Ending) (left : Nat) (r : Report) : Prop :=
  r.left < left ∨ left = 0 ∧ r.left = 0 ∧
    ∃ message, ending = .failure message ∧ r.trap.kind = .ioFailure ∧ r.trap.cause = some message

namespace Session

def reported (fuel : Nat) (s : Session) : Option Report :=
  match s.stage, s.machine.run fuel with
  | .listening, (.trapped t, m) => some { trap := t, left := m.console.remaining }
  | _, _ => none

/-- What a session that listens reports while it is advanced some times, in this order. A run that is not
over after the given number of steps goes on the next time. -/
def reports (fuel : Nat) : Nat → Session → List Report
  | 0, _ => []
  | rounds + 1, s => (s.reported fuel).toList ++ reports fuel rounds (s.advance fuel)

structure Hears (source : Source) (s : Session) : Prop where
  stage : s.stage = .listening
  input : s.machine.console.input = some source

variable {fuel n : Nat} {s : Session} {source : Source}

theorem reports_of_ended {code : UInt8} (h : s.stage = .ended code) (n : Nat) : s.reports fuel n = [] := by
  have hadvance : s.advance fuel = s := by simp only [advance, h]
  have hnone : s.reported fuel = none := by simp only [reported, h]
  induction n with
  | zero => rfl
  | succ n ih =>
    rw [reports, hnone, hadvance, ih]
    rfl

theorem run_succ (h : s.stage = .listening) (k : Nat) :
    s.run fuel (k + 1) = (s.advance fuel).run fuel k := by
  rw [run, h]

def resume (s : Session) (m : Machine) : Session := { s with machine := m }

def restart (s : Session) (t : Trap) (m : Machine) : Session :=
  { s with machine := (report t.message m).reset s.image.quit }

/-- One round: the session ends, or its run goes on, or a trap is reported and the session starts again. -/
theorem reports_succ (h : s.Hears source) (fuel n : Nat) :
    ((s.machine.run fuel).1 = .finished ∧ s.reports fuel (n + 1) = []) ∨
      ∃ m s', m.console.input = some s' ∧ source.Left s' ∧
      ((s.machine.run fuel = (.cancelled, m) ∧ s.advance fuel = s.resume m ∧ (s.resume m).Hears s' ∧
          s.reports fuel (n + 1) = (s.resume m).reports fuel n) ∨
        ∃ t, s.machine.run fuel = (.trapped t, m) ∧ s.advance fuel = s.restart t m ∧
          (s.restart t m).Hears s' ∧ s.reports fuel (n + 1) =
            { trap := t, left := s'.rest.length } :: (s.restart t m).reports fuel n) := by
  obtain ⟨s', hinput, hleft⟩ := Draws.run ⟨source, h.input, .refl source⟩ fuel
  have hremaining : (s.machine.run fuel).2.console.remaining = s'.rest.length := by
    rw [Console.remaining, hinput]
  cases hrun : s.machine.run fuel with
  | mk o m =>
    rw [hrun] at hinput hremaining
    cases o with
    | cancelled =>
      have hadvance : s.advance fuel = s.resume m := by
        simp only [advance, h.stage, hrun, resume]
      have hnone : s.reported fuel = none := by simp only [reported, h.stage, hrun]
      refine .inr ⟨m, s', hinput, hleft, .inl ⟨rfl, hadvance, ⟨h.stage, hinput⟩, ?_⟩⟩
      rw [reports, hnone, hadvance]
      rfl
    | finished =>
      have hended : (s.advance fuel).stage = .ended 0 := by simp only [advance, h.stage, hrun]
      have hnone : s.reported fuel = none := by simp only [reported, h.stage, hrun]
      refine .inl ⟨rfl, ?_⟩
      rw [reports, hnone, reports_of_ended hended]
      rfl
    | trapped t =>
      have hadvance : s.advance fuel = s.restart t m := by
        simp only [advance, h.stage, hrun, restart]
      have hsome : s.reported fuel = some { trap := t, left := s'.rest.length } := by
        simp only [reported, h.stage, hrun]
        rw [hremaining]
      refine .inr ⟨m, s', hinput, hleft, .inr ⟨t, rfl, hadvance, ⟨h.stage, hinput⟩, ?_⟩⟩
      rw [reports, hsome, hadvance]
      rfl

/-- No report comes with more characters left than there were at the start. -/
theorem left_le_of_mem_reports {r : Report} (h : s.Hears source) (hr : r ∈ s.reports fuel n) :
    r.left ≤ source.rest.length := by
  induction n generalizing s source with
  | zero => cases hr
  | succ n ih =>
    rcases reports_succ h fuel n with ⟨-, hnil⟩ | ⟨m, s', -, hleft, ⟨-, -, hhears, hreports⟩ |
      ⟨t, -, -, hhears, hreports⟩⟩
    · rw [hnil] at hr
      cases hr
    · rw [hreports] at hr
      exact Nat.le_trans (ih hhears hr) hleft.length
    · rw [hreports] at hr
      rcases List.mem_cons.mp hr with rfl | hr
      · exact hleft.length
      · exact Nat.le_trans (ih hhears hr) hleft.length

theorem reports_of_no_fuel (h : s.Hears source) (n : Nat) : s.reports 0 n = [] := by
  induction n with
  | zero => rfl
  | succ n ih =>
    rcases reports_succ h 0 n with ⟨-, hnil⟩ | ⟨m, s', -, -, ⟨hrun, -, -, hreports⟩ | ⟨t, hrun, -⟩⟩
    · exact hnil
    · cases hrun
      rw [hreports]
      exact ih
    · cases hrun

/-- If the outer interpreter is in place at the start and after each advance, it is so from the first
advance on. -/
theorem listens_after (h : s.stage = .listening)
    (hloop : ∀ k, k < n + 1 → Listens s.image.quit (s.run fuel k).machine.state.memory) (k : Nat)
    (hk : k < n) : Listens s.image.quit ((s.advance fuel).run fuel k).machine.state.memory := by
  rw [← run_succ h]
  exact hloop (k + 1) (Nat.succ_lt_succ hk)

/-- In the outer interpreter a session reads before it reports anything, if there is something to read. -/
theorem left_lt_of_mem_reports {r : Report} (h : s.Hears source)
    (hl : Listens s.machine.state.ip s.machine.state.memory) (hne : source.rest ≠ [])
    (hr : r ∈ s.reports (fuel + 1) n) : r.left < source.rest.length := by
  cases n with
  | zero => cases hr
  | succ n =>
    -- the first run reads something, and what comes later has no more left than that run
    obtain ⟨s'', hinput'', hshort⟩ := run_shortens hl h.input hne fuel
    rcases reports_succ h (fuel + 1) n with ⟨-, hnil⟩ | ⟨m, s', hinput, -, ⟨hrun, -, hhears, hreports⟩ |
      ⟨t, hrun, -, hhears, hreports⟩⟩
    · rw [hnil] at hr
      cases hr
    · rw [hrun] at hinput''
      cases hinput.symm.trans hinput''
      rw [hreports] at hr
      exact Nat.lt_of_le_of_lt (left_le_of_mem_reports hhears hr) hshort
    · rw [hrun] at hinput''
      cases hinput.symm.trans hinput''
      rw [hreports] at hr
      rcases List.mem_cons.mp hr with rfl | hr
      · exact hshort
      · exact Nat.lt_of_le_of_lt (left_le_of_mem_reports hhears hr) hshort

/-- A session that has come to the end of its input reports nothing more. -/
theorem reports_of_end (h : s.Hears source) (hl : Listens s.machine.state.ip s.machine.state.memory)
    (hnil : source.rest = []) (hend : source.ending = .endOfInput) : s.reports (fuel + 1) n = [] := by
  cases n with
  | zero => rfl
  | succ n =>
    have hfinished := run_of_end hl h.input hnil hend fuel
    rcases reports_succ h (fuel + 1) n with ⟨-, hreports⟩ | ⟨m, s', -, -, ⟨hrun, -⟩ | ⟨t, hrun, -⟩⟩
    · exact hreports
    · rw [hrun] at hfinished
      cases hfinished
    · rw [hrun] at hfinished
      cases hfinished

section Failure

variable {message : String} (h : s.Hears source) (hnil : source.rest = [])
  (hend : source.ending = .failure message) (hip : s.machine.state.ip = s.image.quit)

include h hnil hend hip

/-- A device that fails and has nothing left: the failure is reported, and the session is where it was. -/
theorem reports_succ_of_failure (hl : Listens s.image.quit s.machine.state.memory) (n : Nat) :
    ∃ t m, t.kind = .ioFailure ∧ t.cause = some message ∧ m.state.memory = s.machine.state.memory ∧
      s.advance (fuel + 1) = s.restart t m ∧ (s.restart t m).Hears source ∧
      s.reports (fuel + 1) (n + 1) = { trap := t, left := 0 } :: (s.restart t m).reports (fuel + 1) n := by
  obtain ⟨t, m, hrun, hkind, hcause, hinput, hmemory⟩ := run_of_failure (hip ▸ hl) h.input hnil hend fuel
  rcases reports_succ h (fuel + 1) n with ⟨hrun', -⟩ | ⟨m', s', hinput', -, ⟨hrun', -⟩ |
    ⟨t', hrun', hadvance, hhears, hreports⟩⟩
  · rw [hrun] at hrun'
    cases hrun'
  · cases hrun.symm.trans hrun'
  · cases hrun.symm.trans hrun'
    cases hinput.symm.trans hinput'
    rw [hnil] at hreports
    exact ⟨t, m, hkind, hcause, hmemory, hadvance, hhears, hreports⟩

/-- A device that fails is asked again each time, and each time the same failure is reported. -/
theorem reports_of_failure
    (hloop : ∀ k, k < n → Listens s.image.quit (s.run (fuel + 1) k).machine.state.memory) :
    (s.reports (fuel + 1) n).length = n ∧ ∀ r ∈ s.reports (fuel + 1) n,
      r.left = 0 ∧ r.trap.kind = .ioFailure ∧ r.trap.cause = some message := by
  induction n generalizing s with
  | zero => exact ⟨rfl, fun r hr => nomatch hr⟩
  | succ n ih =>
    obtain ⟨t, m, hkind, hcause, -, hadvance, hhears, hreports⟩ :=
      reports_succ_of_failure h hnil hend hip (hloop 0 (Nat.zero_lt_succ n)) n
    have hrest := listens_after h.stage hloop
    rw [hadvance] at hrest
    obtain ⟨hlength, hall⟩ := ih hhears rfl hrest
    rw [hreports]
    refine ⟨by rw [List.length_cons, hlength], ?_⟩
    intro r hr
    rcases List.mem_cons.mp hr with rfl | hr
    · exact ⟨rfl, hkind, hcause⟩
    · exact hall r hr

/-- Outside of a definition, going back to the outer interpreter changes nothing in memory. -/
theorem memory_run_of_failure (hl : Listens s.image.quit s.machine.state.memory)
    (hmode : s.machine.state.memory[Memory.stateAddress]? = some (.int 0)) (k : Nat) :
    (s.run (fuel + 1) k).machine.state.memory = s.machine.state.memory := by
  induction k generalizing s with
  | zero => rfl
  | succ k ih =>
    obtain ⟨t, m, -, -, hmemory, hadvance, hhears, -⟩ := reports_succ_of_failure h hnil hend hip hl 0
    have hsame : (s.restart t m).machine.state.memory = s.machine.state.memory := by
      rw [← Memory.insert_eq_self _ hmode, ← hmemory]
      rfl
    rw [run_succ h.stage, hadvance, ih hhears rfl (hsame ▸ hl) (hsame ▸ hmode), hsame]

end Failure

/-- What is reported by a session that is in the outer interpreter. -/
theorem follows_of_mem_reports {r : Report} (h : s.Hears source) (hip : s.machine.state.ip = s.image.quit)
    (hloop : ∀ k, k < n → Listens s.image.quit (s.run fuel k).machine.state.memory)
    (hr : r ∈ s.reports fuel n) : r.Follows source.ending source.rest.length := by
  have hpos : 0 < n := by
    cases n with
    | zero => cases hr
    | succ n => exact Nat.zero_lt_succ n
  have hl : Listens s.machine.state.ip s.machine.state.memory := hip ▸ hloop 0 hpos
  cases fuel with
  | zero =>
    rw [reports_of_no_fuel h] at hr
    cases hr
  | succ fuel =>
    by_cases hnil : source.rest = []
    · cases hend : source.ending with
      | endOfInput =>
        rw [reports_of_end h hl hnil hend] at hr
        cases hr
      | failure message =>
        obtain ⟨hleft, hkind, hcause⟩ := (reports_of_failure h hnil hend hip hloop).2 r hr
        rw [hnil]
        exact .inr ⟨rfl, hleft, message, rfl, hkind, hcause⟩
    · exact .inl (left_lt_of_mem_reports h hl hnil hr)

/-- Of two reports the later one has less left, or the input was used up. -/
theorem pairwise_reports (h : s.Hears source)
    (hloop : ∀ k, k < n → Listens s.image.quit (s.run fuel k).machine.state.memory) :
    (s.reports fuel n).Pairwise fun x y => y.Follows source.ending x.left := by
  induction n generalizing s source with
  | zero => exact .nil
  | succ n ih =>
    have hrest := listens_after h.stage hloop
    rcases reports_succ h fuel n with ⟨-, hnil⟩ | ⟨m, s', -, hleft, ⟨-, hadvance, hhears, hreports⟩ |
      ⟨t, -, hadvance, hhears, hreports⟩⟩
    · rw [hnil]
      exact .nil
    · rw [hadvance] at hrest
      rw [hreports, ← hleft.ending]
      exact ih hhears hrest
    · rw [hadvance] at hrest
      rw [hreports, ← hleft.ending]
      refine .cons ?_ (ih hhears hrest)
      -- after a report the session is back in the outer interpreter
      intro r hr
      exact follows_of_mem_reports hhears rfl hrest hr

theorem length_le_of_pairwise {rs : List Report} {bound : Nat} (h : rs.Pairwise fun x y => y.left < x.left)
    (hbound : ∀ r ∈ rs, r.left ≤ bound) : rs.length ≤ bound + 1 := by
  induction rs generalizing bound with
  | nil => exact Nat.zero_le _
  | cons r rs ih =>
    obtain ⟨hless, hrest⟩ := List.pairwise_cons.mp h
    have hr : r.left ≤ bound := hbound r List.mem_cons_self
    cases rs with
    | nil => simp
    | cons r' rs =>
      have hpos : 0 < r.left := Nat.zero_lt_of_lt (hless r' List.mem_cons_self)
      have hbelow (x : Report) (hx : x ∈ r' :: rs) : x.left ≤ r.left - 1 := Nat.le_pred_of_lt (hless x hx)
      calc (r :: r' :: rs).length = (r' :: rs).length + 1 := List.length_cons
        _ ≤ r.left - 1 + 1 + 1 := Nat.succ_le_succ (ih hrest hbelow)
        _ = r.left + 1 := by rw [Nat.sub_add_cancel hpos]
        _ ≤ bound + 1 := Nat.succ_le_succ hr

/-- On an input that ends without a failure there are at most as many reports as there were characters, and
one more. -/
theorem length_reports_le (h : s.Hears source) (hending : source.ending = .endOfInput)
    (hloop : ∀ k, k < n → Listens s.image.quit (s.run fuel k).machine.state.memory) :
    (s.reports fuel n).length ≤ source.rest.length + 1 := by
  apply length_le_of_pairwise
  · apply (pairwise_reports h hloop).imp
    rintro x y (hless | ⟨-, -, message, hfailure, -⟩)
    · exact hless
    · rw [hending] at hfailure
      cases hfailure
  · intro r hr
    exact left_le_of_mem_reports h hr

/-- Between two reports of a session that listens something is read, unless nothing was left and the device
fails again. So an input that ends without a failure leads to at most one report more than it has
characters; but from a device that fails and has nothing left, every round reports the failure. -/
theorem recovery_shortens_input (hstage : s.stage = .listening)
    (hinput : s.machine.console.input = some source)
    (hloop : ∀ k, k < n → Listens s.image.quit (s.run fuel k).machine.state.memory) :
    ((s.reports fuel n).Pairwise fun x y => y.Follows source.ending x.left) ∧
      (source.ending = .endOfInput → (s.reports fuel n).length ≤ source.rest.length + 1) ∧
      (∀ message, source.ending = .failure message → source.rest = [] →
        s.machine.state.ip = s.image.quit → 0 < fuel → (s.reports fuel n).length = n) := by
  have h : s.Hears source := ⟨hstage, hinput⟩
  refine ⟨pairwise_reports h hloop, fun hending => length_reports_le h hending hloop, ?_⟩
  intro message hending hnil hip hfuel
  obtain ⟨fuel, rfl⟩ : ∃ k, fuel = k + 1 := ⟨fuel - 1, by omega⟩
  exact (reports_of_failure h hnil hending hip hloop).1

def deaf : Session where
  machine := {
    state := idle Image.defaultBase parts
    console.input := some { rest := [], ending := .failure "is a directory" } }
  image := { base := Image.defaultBase, quit := quitAddress Image.defaultBase }
  encoding := .utf8
  stage := .listening
  pending := []
  input := []
  ending := .failure "is a directory"

theorem listens_deaf (k : Nat) : Listens deaf.image.quit (deaf.run 1 k).machine.state.memory := by
  have hbase : Image.isValidBase Image.defaultBase = true := by decide
  have hf : Memory.Free Image.defaultBase (size parts) := free_of_isValidBase hbase (by decide)
  have hsite : (site Image.defaultBase parts "").Equipped (builtinField Image.defaultBase) (size []) :=
    equipped_site (List.append_nil parts).symm hf grounded_parts
  have hl : Listens deaf.image.quit deaf.machine.state.memory := by
    obtain ⟨i, b, hcells, hinterpret, -⟩ := hsite.loop_memory.cells
    exact ⟨i, (Memory.holds_cons.mp hcells).1, hinterpret⟩
  have hmode : deaf.machine.state.memory[Memory.stateAddress]? = some (.int 0) :=
    (sound_placed (List.append_nil parts).symm hf).state
  rw [memory_run_of_failure ⟨rfl, rfl⟩ rfl rfl rfl hl hmode]
  exact hl

/-- A thousand reports from an input without characters. -/
theorem recovery_repeats_failure :
    (∃ fuel m, Image.install fuel 16 {} = (.ok deaf.image, m) ∧ m.state = deaf.machine.state) ∧
      (deaf.reports 1 1000).length = 1000 := by
  have hbase : Image.isValidBase Image.defaultBase = true := by decide
  obtain ⟨n, m, hinstall, hstate, -⟩ := install_apply hbase {}
  refine ⟨⟨n, m, hinstall n (Nat.le_refl n), hstate⟩, ?_⟩
  have hreports := recovery_shortens_input (n := 1000) rfl rfl fun k _ => listens_deaf k
  exact hreports.2.2 "is a directory" rfl rfl rfl (Nat.zero_lt_succ 0)

end Session

end CommandLine

end ForthMachine
