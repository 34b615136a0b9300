import ForthMachine.Proofs.Machine.Reading
import ForthMachine.Proofs.Text.Decimal

namespace ForthMachine

open State Memory Numeral

variable {st : State} {m m₁ m₂ : Machine} {w n h : Word} {c : Cell} {s : String} {rest : Stack Cell}
  {source source' : Source}

namespace Compiler

def verdict (s : String) : Stack Cell :=
  match decimal? s.toList with
  | some n => [.int 0, .int n]
  | none => [.int (-1), .nil]

theorem number_apply (hs : st.stack = .text s :: rest) :
    number st = .ok () { st with stack := verdict s ++ rest } := by
  simp only [number, Action.bind_apply, onStack_apply, hs, Operand.text_cons, Cell.text?, verdict]
  cases decimal? s.toList <;> rfl

/-- NUMBER accepts the decimals in the range of a word, with their values. -/
theorem verdict_eq_accepted_iff (rest : Stack Cell) :
    verdict s ++ rest = .int 0 :: .int n :: rest ↔ Spells s.toList n.toInt := by
  rw [← decimal?_eq_some_iff, verdict]
  cases decimal? s.toList with
  | none => simp
  | some k => simp

/-- NUMBER refuses every other text. -/
theorem verdict_eq_refused_iff (rest : Stack Cell) :
    verdict s ++ rest = .int (-1) :: .nil :: rest ↔ ∀ n, Spells s.toList n → ¬InRange n := by
  rw [← decimal?_eq_none_iff, verdict]
  cases decimal? s.toList with
  | none => simp
  | some k => simp

/-- The two cells of a literal, compiled one after the other. -/
theorem compileLiteral_of_here (hc : st.memory[hereAddress]? = some c) (hh : c.address? = some h)
    (x : Cell) : compileLiteral x st = .ok () { st with memory := st.memory.append h [.builtin .lit, x] } := by
  have hsecond (M : Memory) (hM : M[hereAddress]? = some (.addr (h + 1))) :
      State.comma x { st with memory := M } =
        .ok () { st with memory := (M.insert (h + 1) x).insert hereAddress (.addr (h + 1 + 1)) } :=
    comma_of_here hM rfl
  have htwo : h + 1 + 1 = h.plus 2 := Int64.add_assoc _ _ _
  simp only [compileLiteral, Action.bind_apply, comma_of_here hc hh, hsecond _ (getElem?_insert_eq _ _ _),
    htwo]
  congr 2
  change _ = ((st.memory.insert h (.builtin .lit)).insert (h + 1) x).insert hereAddress (.addr (h.plus 2))
  by_cases hne : h + 1 = hereAddress
  · rw [hne, insert_insert, insert_insert, insert_insert]
  · rw [insert_comm _ _ _ (Ne.symm hne), insert_insert]

section Meaning

variable (hf : st.dictionary.find? s = none)

include hf

/-- While words are interpreted, a number goes onto the stack. -/
theorem meaning_of_interpreted (hi : st.isCompiling = false) (hn : decimal? s.toList = some n) :
    meaning s st = .ok none { st with ip := st.nip, nip := st.nip + 1, stack := .int n :: st.stack } := by
  simp [meaning, hf, hn, hi]

/-- While words are compiled, a number becomes a literal. -/
theorem meaning_of_compiled (hi : st.isCompiling = true) (hc : st.memory[hereAddress]? = some c)
    (hh : c.address? = some h) (hn : decimal? s.toList = some n) :
    meaning s st = .ok none { st with
      ip := st.nip, nip := st.nip + 1, memory := st.memory.append h [.builtin .lit, .int n] } := by
  simp [meaning, hf, hn, hi, compileLiteral_of_here hc hh]

/-- A word that is neither a name nor a number has no meaning. -/
theorem meaning_of_unknown (hn : decimal? s.toList = none) :
    meaning s st = .error (.trap { kind := .unresolvable, token := s }) st := by
  simp [meaning, hf, hn, unknown]

end Meaning

end Compiler

namespace Machine

/-- A step that goes on to the next cell and leaves the given memory, stack and console; the stack is
written to the trace. -/
def GoesOn (m : Machine) (M : Memory) (S : Stack Cell) (console : Console) : Prop :=
  step m = .ok () (noteStack {
    state := { m.state with ip := m.state.ip + 1, nip := m.state.ip + 2, memory := M, stack := S }
    console })

/-- A step in which INTERPRET, started on `m₁`, stops at a word that has no meaning. Only the words that
handed over to it have taken anything. -/
def Rejects (m m₁ : Machine) (token : String) (console : Console) : Prop :=
  step m = .error
    { kind := .unresolvable
      token
      word := "INTERPRET"
      context := some ⟨m.state.ip, m.state.nip, m₁.state.stack, m.state.returns⟩ }
    { state := { m.state with nip := m.state.ip + 1, stack := m₁.state.stack }
      console := console.note "\n" }

/-- What a step leaves is determined. -/
theorem GoesOn.unique {M M' : Memory} {S S' : Stack Cell} {k k' : Console} (h : GoesOn m M S k)
    (h' : GoesOn m M' S' k') : M = M' ∧ S = S' := by
  rw [GoesOn, h, EStateM.Result.ok.injEq] at h'
  have hstate := congrArg Machine.state h'.2
  exact ⟨congrArg State.memory hstate, congrArg State.stack hstate⟩

/-- A word that succeeds at the end of the hand-overs ends the step. -/
theorem goesOn_of_runs {b : Builtin} {M : Memory} {S : Stack Cell} {k : Console}
    (hr : Runs m w (.builtin b) m₁)
    (hp : (Primitive.builtin b).perform w m₁ = .ok none
      { state := { m₁.state with ip := m₁.state.nip, nip := m₁.state.nip + 1, memory := M, stack := S }
        console := k }) : GoesOn m M S k := by
  have htwo : m.state.ip + 1 + 1 = m.state.ip + 2 := Int64.add_assoc _ _ _
  rw [GoesOn, step_of_runs_performs hr hp, state_of_runs hr, htwo]

/-- NUMBER takes the text and leaves its verdict. -/
theorem goesOn_number (hr : Runs m w (.builtin .number) m₁) (hs : m₁.state.stack = .text s :: rest) :
    GoesOn m m.state.memory (Compiler.verdict s ++ rest) m₁.console := by
  apply goesOn_of_runs hr
  have hmemory : m₁.state.memory = m.state.memory := by rw [state_of_runs hr]
  have hnumber : Builtin.number.perform w = Builtin.perform.onState Compiler.number := rfl
  simp only [Primitive.perform, Builtin.contract, hnumber, Action.bind_apply,
    Builtin.perform_onState_apply, Compiler.number_apply hs, onState_apply, advance_apply,
    Action.pure_apply, hmemory]

/-- INTERPRET does what the word that it reads asks for. -/
theorem perform_interpret (hi : m.console.input = some source) (hw : source.nextWord = (.ok s, source')) :
    (Primitive.builtin .interpret).perform w m =
      onState (Compiler.meaning s) { m with console.input := some source' } := by
  change Compiler.interpret m = _
  rw [Compiler.interpret, Action.bind_apply, nextWord_of_word hi hw]

section Interpreting

variable (hr : Runs m w (.builtin .interpret) m₁) (hin : m₁.console.input = some source)
  (hw : source.nextWord = (.ok s, source')) (hf : m.state.dictionary.find? s = none)

include hr hin hw hf

/-- INTERPRET puts the number that it has read on the stack. -/
theorem goesOn_interpreted (hi : m.state.isCompiling = false) (hn : decimal? s.toList = some n) :
    GoesOn m m.state.memory (.int n :: m₁.state.stack) { m₁.console with input := some source' } := by
  apply goesOn_of_runs hr
  have hst := state_of_runs hr
  have hmemory : m₁.state.memory = m.state.memory := by rw [hst]
  have hf₁ : m₁.state.dictionary.find? s = none := by rw [hst, hf]
  have hi₁ : m₁.state.isCompiling = false := by
    rw [← hi]
    simp only [isCompiling, hmemory]
  rw [perform_interpret hin hw, onState_apply, Compiler.meaning_of_interpreted hf₁ hi₁ hn, ← hmemory]

/-- INTERPRET compiles the number that it has read. -/
theorem goesOn_compiled (hi : m.state.isCompiling = true) (hc : m.state.memory[hereAddress]? = some c)
    (hh : c.address? = some h) (hn : decimal? s.toList = some n) :
    GoesOn m (m.state.memory.append h [.builtin .lit, .int n]) m₁.state.stack
      { m₁.console with input := some source' } := by
  apply goesOn_of_runs hr
  have hst := state_of_runs hr
  have hmemory : m₁.state.memory = m.state.memory := by rw [hst]
  have hf₁ : m₁.state.dictionary.find? s = none := by rw [hst, hf]
  have hi₁ : m₁.state.isCompiling = true := by
    rw [← hi]
    simp only [isCompiling, hmemory]
  rw [← hmemory] at hc ⊢
  rw [perform_interpret hin hw, onState_apply, Compiler.meaning_of_compiled hf₁ hi₁ hc hh hn]

/-- INTERPRET stops at any other word that it has read. -/
theorem rejects_unknown (hn : decimal? s.toList = none) :
    Rejects m m₁ s { m₁.console with input := some source' } := by
  have hst := state_of_runs hr
  have hf₁ : m₁.state.dictionary.find? s = none := by rw [hst, hf]
  have hp : (Primitive.builtin .interpret).perform w m₁ =
      .error (.trap { kind := .unresolvable, token := s }) { m₁ with console.input := some source' } := by
    rw [perform_interpret hin hw, onState_apply, Compiler.meaning_of_unknown hf₁ hn]
  rw [Rejects, step_of_runs_raises hr hp rfl]
  -- up to INTERPRET the step has only taken cells from the stack
  have hreturns : m₁.state.returns = m.state.returns := by rw [hst]
  rw [← hst, hreturns]
  rfl

end Interpreting

/-- NUMBER and INTERPRET accept exactly the decimals in the range of a word. NUMBER replaces the text by the
number and 0, any other text by the empty cell and -1. Where a word of the program is no visible name,
INTERPRET puts the same number on the stack or compiles it as a literal, and stops at any other word. -/
theorem numbers_are_decimals :
    (∀ m w m₁ s rest, Runs m w (.builtin .number) m₁ → m₁.state.stack = .text s :: rest →
      (∀ n, GoesOn m m.state.memory (.int 0 :: .int n :: rest) m₁.console ↔
        Spells s.toList n.toInt) ∧
      (GoesOn m m.state.memory (.int (-1) :: .nil :: rest) m₁.console ↔
        ∀ n, Spells s.toList n → ¬InRange n)) ∧
    ∀ m w m₁ source s source' c h, Runs m w (.builtin .interpret) m₁ →
      m₁.console.input = some source → source.nextWord = (.ok s, source') →
      m.state.dictionary.find? s = none →
      m.state.memory[hereAddress]? = some c → c.address? = some h →
      (m.state.isCompiling = false → ∀ n,
        GoesOn m m.state.memory (.int n :: m₁.state.stack) { m₁.console with input := some source' } ↔
          Spells s.toList n.toInt) ∧
      (m.state.isCompiling = true → ∀ n, Spells s.toList n.toInt →
        GoesOn m (m.state.memory.append h [.builtin .lit, .int n]) m₁.state.stack
          { m₁.console with input := some source' }) ∧
      (Rejects m m₁ s { m₁.console with input := some source' } ↔
        ∀ n, Spells s.toList n → ¬InRange n) := by
  refine ⟨fun m w m₁ s rest hr hs => ?_, fun m w m₁ source s source' c h hr hin hw hf hc hh => ?_⟩
  · have hstep := goesOn_number hr hs
    refine ⟨fun n => ?_, ?_⟩
    · rw [← Compiler.verdict_eq_accepted_iff rest]
      exact ⟨fun h => (hstep.unique h).2, fun h => h ▸ hstep⟩
    · rw [← Compiler.verdict_eq_refused_iff rest]
      exact ⟨fun h => (hstep.unique h).2, fun h => h ▸ hstep⟩
  · -- the word is a number or it is not, and the step shows which
    cases hd : decimal? s.toList with
    | none =>
      have hstep := rejects_unknown hr hin hw hf hd
      have hnone := decimal?_eq_none_iff.mp hd
      have hno (n : Word) : ¬Spells s.toList n.toInt :=
        fun hs => hnone _ hs (exists_toInt_iff.mp ⟨n, rfl⟩)
      refine ⟨fun _ n => ⟨fun h => ?_, fun hs => absurd hs (hno n)⟩,
        fun _ n hs => absurd hs (hno n), fun _ => hnone, fun _ => hstep⟩
      cases hstep.symm.trans h
    | some k =>
      have hspells := decimal?_eq_some_iff.mp hd
      have hsome {n : Word} (hs : Spells s.toList n.toInt) : n = k :=
        Option.some.inj ((decimal?_eq_some_iff.mpr hs).symm.trans hd)
      refine ⟨fun hi n => ⟨fun h => ?_, fun hs => ?_⟩, fun hi n hs => ?_, fun h => ?_, fun hnone => ?_⟩
      · obtain ⟨-, hstack⟩ := h.unique (goesOn_interpreted hr hin hw hf hi hd)
        cases hstack
        exact hspells
      · rw [hsome hs]
        exact goesOn_interpreted hr hin hw hf hi hd
      · rw [hsome hs]
        exact goesOn_compiled hr hin hw hf hi hc hh hd
      · -- in neither mode the step fails
        cases hi : m.state.isCompiling with
        | false => cases h.symm.trans (goesOn_interpreted hr hin hw hf hi hd)
        | true => cases h.symm.trans (goesOn_compiled hr hin hw hf hi hc hh hd)
      · exact absurd (exists_toInt_iff.mp ⟨k, rfl⟩) (hnone _ hspells)

end Machine

namespace NumberWords

open Machine

def memory (b : Builtin) : Memory := Memory.load (Memory.load ∅ 0 [.addr 20, .nil, .int 1]) 10 [.builtin b]

def machine (b : Builtin) (stack : Stack Cell) (text : String) : Machine where
  state := { ip := 10, nip := 11, memory := memory b, stack }
  console := { input := some { rest := text.toList } }

theorem runs_machine (b : Builtin) (stack : Stack Cell) (text : String) :
    Runs (machine b stack text) 10 (.builtin b) ((machine b stack text).begin (.builtin b)) := by
  have hcell : (memory b)[(10 : Word)]? = some (.builtin b) := getElem?_insert_eq _ _ _
  exact .first hcell (resolve_prim _ _ _)

end NumberWords

namespace Machine

open NumberWords

/-- The lowest number is accepted and its magnitude is not; a literal with a sign and zeros in front is
compiled, and a group of digits with a mark in it stops the interpreter. -/
theorem lowest_number_is_accepted :
    GoesOn (machine .number [.text "-9223372036854775808"] "") (memory .number)
      [.int 0, .int (-9223372036854775808)] { input := some { rest := [] } } ∧
    GoesOn (machine .number [.text "9223372036854775808"] "") (memory .number)
      [.int (-1), .nil] { input := some { rest := [] } } ∧
    GoesOn (machine .interpret [] "+007 .") ((memory .interpret).append 20 [.builtin .lit, .int 7])
      [] { input := some { rest := ['.'] } } ∧
    Rejects (machine .interpret [] "1_000") ((machine .interpret [] "1_000").begin (.builtin .interpret))
      "1_000" { input := some { rest := [] } } := by
  obtain ⟨hnumber, hinterpret⟩ := numbers_are_decimals
  have hhere : (memory .interpret)[hereAddress]? = some (.addr 20) := by decide +kernel
  refine ⟨?_, ?_, ?_, ?_⟩
  · have hspells : Spells "-9223372036854775808".toList (-9223372036854775808 : Word).toInt :=
      decimal?_eq_some_iff.mp (by decide +kernel)
    exact ((hnumber _ _ _ _ _ (runs_machine _ _ _) rfl).1 _).mpr hspells
  · have hnone : ∀ n, Spells "9223372036854775808".toList n → ¬InRange n :=
      decimal?_eq_none_iff.mp (by decide +kernel)
    exact (hnumber _ _ _ _ _ (runs_machine _ _ _) rfl).2.mpr hnone
  · have hspells : Spells "+007".toList (7 : Word).toInt := decimal?_eq_some_iff.mp (by decide +kernel)
    have hword : Source.nextWord { rest := "+007 .".toList } = (.ok "+007", { rest := ['.'] }) := by
      decide +kernel
    exact (hinterpret _ _ _ _ _ _ _ _ (runs_machine _ _ _) rfl hword rfl hhere rfl).2.1 rfl _ hspells
  · have hnone : ∀ n, Spells "1_000".toList n → ¬InRange n := decimal?_eq_none_iff.mp (by decide +kernel)
    have hword : Source.nextWord { rest := "1_000".toList } = (.ok "1_000", { rest := [] }) := by
      decide +kernel
    exact (hinterpret _ _ _ _ _ _ _ _ (runs_machine _ _ _) rfl hword rfl hhere rfl).2.2.mpr hnone

end Machine

end ForthMachine
