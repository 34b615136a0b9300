import ForthMachine.Image
import ForthMachine.Proofs.Machine.Atomicity
import ForthMachine.Proofs.Machine.Dispatch

namespace ForthMachine

open Memory

namespace State

variable {α : Type}

def pointers (st : State) : Word × Word := (st.ip, st.nip)

theorem spares_onStack (x : Action (Stack Cell) α) : Spares pointers (onStack x) :=
  spares_zoom (fun _ _ => by rfl) x

theorem spares_push (c : Cell) : Spares pointers (push c) := fun _ => rfl

theorem spares_store (a : Word) (c : Cell) : Spares pointers (store a c) := fun _ => rfl

theorem spares_modifyFlags (i : Nat) (f : Flags → Flags) : Spares pointers (modifyFlags i f) := fun _ => rfl

theorem spares_comma (c : Cell) : Spares pointers (comma c) :=
  (spares_fetchAddress _).bind fun _ => (spares_store _ _).bind fun _ => spares_store _ _

/-- Five stores and a new entry, none of which moves a pointer. -/
theorem spares_define (name : String) : Spares pointers (define name) := by
  apply (spares_fetchAddress _).bind
  intro h
  apply spares_get.bind
  intro st
  cases st.latestLink with
  | error t => exact spares_throw _
  | ok link =>
    intro st'
    rfl

theorem spares_latest : Spares pointers latest := by
  apply (spares_fetchAddress _).bind
  intro link
  apply spares_get.bind
  intro st
  cases st.headerPosition link with
  | ok i => exact spares_pure i
  | error t => exact spares_throw _

end State

open State

namespace Storage

theorem spares_topReturn : Spares pointers topReturn := spares_get.bind fun _ => spares_orRaise _ _

theorem spares_takeReturn : Spares pointers takeReturn := by
  apply spares_topReturn.bind
  intro r st
  rfl

theorem spares_pushReturn (r : Word) : Spares pointers (pushReturn r) := fun _ => rfl

theorem spares_plusStore : Spares pointers plusStore := by
  apply (spares_onStack _).bind
  rintro ⟨a, n⟩
  apply (State.spares_fetch a).bind
  intro c
  split
  · exact State.spares_store _ _
  · exact (spares_orRaise _ _).bind fun _ => State.spares_store _ _

end Storage

namespace Compiler

theorem spares_find : Spares pointers find := by
  apply (spares_onStack _).bind
  intro name
  apply spares_get.bind
  intro st
  split
  · exact spares_push _
  · exact spares_pure _

theorem spares_number : Spares pointers number := by
  apply (spares_onStack _).bind
  intro s
  split
  · exact (spares_push _).bind fun _ => spares_push _
  · exact (spares_push _).bind fun _ => spares_push _

theorem spares_hidden : Spares pointers hidden := by
  apply (spares_onStack _).bind
  intro code
  apply spares_get.bind
  intro st
  split
  · exact spares_modifyFlags _ _
  · exact spares_throw _

theorem spares_beginDefinition (name : String) : Spares pointers (beginDefinition name) :=
  (spares_define name).bind fun _ => (spares_comma _).bind fun _ =>
    (spares_modifyFlags _ _).bind fun _ => spares_store _ _

theorem spares_semicolon : Spares pointers semicolon :=
  (spares_comma _).bind fun _ => spares_latest.bind fun _ =>
    (spares_modifyFlags _ _).bind fun _ => spares_store _ _

theorem spares_compileLiteral (c : Cell) : Spares pointers (compileLiteral c) :=
  (spares_comma _).bind fun _ => spares_comma c

end Compiler

namespace Machine

variable {α : Type}

def pointers (m : Machine) : Word × Word := m.state.pointers

theorem spares_onState {x : Action State α} (hx : Spares State.pointers x) :
    Spares pointers (onState x) :=
  hx.onState

theorem spares_tick : Spares pointers Compiler.tick := by
  apply (spares_onConsole _).bind
  intro name
  apply spares_get.bind
  intro m
  split
  · exact spares_onState (spares_push _)
  · exact spares_throw _

end Machine

namespace Builtin

open Machine

theorem spares_finish {x : Action Machine Unit} (hx : Spares Machine.pointers x) :
    Spares Machine.pointers (perform.finish x) :=
  hx.bind fun _ => spares_pure _

theorem spares_stateWord {x : Action State Unit} (hx : Spares State.pointers x) :
    Spares Machine.pointers (perform.onState x) :=
  spares_finish (spares_onState hx)

/-- An ordinary word leaves the pointers alone. -/
theorem spares_perform {b : Builtin} (hb : b.contract = .ordinary) (w : Word) :
    Spares Machine.pointers (b.perform w) := by
  cases b
  case move | lit | branch | zeroBranch | docol | exit | execute | interpret => cases hb
  case drop | dup | copySecond | swap | rot | depth | plus | minus | times | divMod | negate | equals
    | less | zeroEquals => exact spares_stateWord (spares_onStack _)
  case here | latest | state => exact spares_stateWord (spares_push _)
  case toReturn =>
    exact spares_stateWord ((spares_onStack _).bind fun _ => Storage.spares_pushReturn _)
  case fromReturn => exact spares_stateWord (Storage.spares_takeReturn.bind fun _ => spares_push _)
  case copyReturn => exact spares_stateWord (Storage.spares_topReturn.bind fun _ => spares_push _)
  case dropReturn => exact spares_stateWord (Storage.spares_takeReturn.map _)
  case fetch =>
    exact spares_stateWord ((spares_onStack _).bind fun _ => (spares_fetch _).bind fun _ => spares_push _)
  case store => exact spares_stateWord ((spares_onStack _).bind fun _ => spares_store _ _)
  case plusStore => exact spares_stateWord Storage.spares_plusStore
  case key => exact spares_finish ((spares_onConsole _).bind fun _ => spares_onState (spares_push _))
  case emit | dot =>
    exact spares_finish ((spares_onState (spares_onStack _)).bind fun _ => spares_onConsole _)
  case cr => exact spares_finish (spares_onConsole _)
  case words => exact spares_finish spares_words
  case word => exact spares_finish ((spares_onConsole _).bind fun _ => spares_onState (spares_push _))
  case find => exact spares_stateWord Compiler.spares_find
  case number => exact spares_stateWord Compiler.spares_number
  case comma => exact spares_stateWord ((spares_onStack _).bind fun _ => spares_comma _)
  case create =>
    apply spares_stateWord
    apply (spares_onStack _).bind
    intro name
    exact (spares_define name).map _
  case immediate => exact spares_stateWord (spares_latest.bind fun _ => spares_modifyFlags _ _)
  case hidden => exact spares_stateWord Compiler.spares_hidden
  case leftBracket | rightBracket => exact spares_stateWord (spares_store _ _)
  case colon =>
    apply spares_finish
    apply (spares_onConsole _).bind
    intro name
    exact spares_onState (Compiler.spares_beginDefinition name)
  case semicolon => exact spares_stateWord Compiler.spares_semicolon
  case tick => exact spares_finish spares_tick
  case literal => exact spares_stateWord ((spares_onStack _).bind fun _ => Compiler.spares_compileLiteral _)
  case trace =>
    apply spares_finish
    apply (spares_onState (spares_onStack _)).bind
    intro flag m
    rfl
  case bye => exact spares_throw _

end Builtin

section Advancing

variable {α β : Type} {done : α → Prop}

/-- Where the action ends with a result of the given sort, the machine goes on at the cell that was next. -/
def Advances (done : α → Prop) (x : Action State α) : Prop :=
  ∀ st a st', x st = .ok a st' → done a → st'.ip = st.nip

/-- What leaves the pointers alone can come before an action that advances. -/
theorem Spares.bind_advances {x : Action State β} {g : β → Action State α} (hx : Spares State.pointers x)
    (hg : ∀ b, Advances done (g b)) : Advances done (x >>= g) := by
  intro st a st' h hdone
  obtain ⟨b, st₁, hb, hrest⟩ := Action.ok_of_bind h
  have hkept := hx st
  rw [hb, endState_ok] at hkept
  obtain ⟨-, hnip⟩ := Prod.mk.inj hkept
  rw [← hnip]
  exact hg b st₁ a st' hrest hdone

theorem advances_advance_pure (a : α) : Advances done (do advance; pure a) := by
  intro st b st' h _
  cases h
  rfl

/-- MOVE goes on at the cell that was next, and only when all cells are copied. -/
theorem advances_move (done : Unit → Prop) : Advances done Storage.move := by
  apply (spares_onStack _).bind_advances
  rintro ⟨target, source, count⟩ st u st' h _
  simp only [Action.bind_apply, Action.get_apply, Action.set_apply] at h
  cases hu : (st.memory.copyUp target source count.toInt.toNat).2 with
  | none =>
    simp only [hu] at h
    cases h
    rfl
  | some a =>
    simp only [hu] at h
    cases h

/-- INTERPRET goes on at the cell that was next when it has taken its word in. -/
theorem advances_meaning (name : String) : Advances (· = none) (Compiler.meaning name) := by
  apply spares_get.bind_advances
  intro st
  split
  · split
    · intro st a st' h hnone
      cases h
      cases hnone
    · exact (spares_comma _).bind_advances fun _ => advances_advance_pure none
  · split
    · intro st a st' h
      cases h
    · split
      · exact (Compiler.spares_compileLiteral _).bind_advances fun _ => advances_advance_pure none
      · exact (spares_push _).bind_advances fun _ => advances_advance_pure none

end Advancing

namespace Machine

variable {m m' m₁ m₂ : Machine} {w : Word} {b : Builtin}

inductive TakesIn (m : Machine) : Prop where
  | name {name : String} {m' : Machine} {e : Entry} : Terminal.nextWord m = .ok name m' →
      m.state.dictionary.find? name = some e → e.flags.immediate = false → m.state.isCompiling = true →
      TakesIn m
  | number {name : String} {m' : Machine} {n : Word} : Terminal.nextWord m = .ok name m' →
      m.state.dictionary.find? name = none → Numeral.decimal? name.toList = some n → TakesIn m

/-- INTERPRET hands over to the word that it has read, unless it takes the word in. -/
theorem takesIn_of_interpret (h : Builtin.perform w .interpret m = .ok none m') : m.TakesIn := by
  obtain ⟨name, m₁, hword, hrest⟩ := Action.ok_of_bind h
  have hst := ok_of_onState hrest
  rw [Builtin.state_of_nextWord hword] at hst
  simp only [Compiler.meaning, Action.bind_apply, Action.get_apply] at hst
  cases hf : m.state.dictionary.find? name with
  | some e =>
    simp only [hf] at hst
    split at hst
    · cases hst
    · rename_i hnot
      simp only [Bool.or_eq_true, Bool.not_eq_true', not_or, Bool.not_eq_true, Bool.not_eq_false] at hnot
      exact .name hword hf hnot.1 hnot.2
  | none =>
    cases hk : Numeral.decimal? name.toList with
    | none =>
      simp only [hf, hk] at hst
      cases hst
    | some n => exact .number hword hf hk

/-- The step from `m` ends in the built-in word `b`, which finds the machine `m₁`, succeeds and hands over
to no other word. -/
def EndsIn (m : Machine) (b : Builtin) (m₁ : Machine) : Prop :=
  ∃ w m₂, Runs m w (.builtin b) m₁ ∧ (Primitive.builtin b).perform w m₁ = .ok none m₂

/-- Within a step no word but the last one moves the pointers. -/
theorem nip_of_runs {p : Primitive} (h : Runs m w p m₁) : m₁.state.nip = m.state.ip + 1 := by
  obtain ⟨earlier, ht⟩ := h.trail
  obtain ⟨-, hst⟩ := ht.state
  rw [hst]
  rfl

/-- The state after a step is the one that its last word leaves. -/
theorem state_of_endsIn (hr : Runs m w (.builtin b) m₁)
    (hp : (Primitive.builtin b).perform w m₁ = .ok none m₂) (h : step m = .ok () m') :
    m'.state = m₂.state := by
  obtain ⟨c, w₀, p₀, hc, hres, hinvoke⟩ := invoke_of_runs hr b.name_ne_empty
  rw [step_eq_conclude hc hres, hinvoke, invoke_of_perform hp] at h
  cases h
  rfl

/-- A step that succeeds ends in a built-in word. -/
theorem endsIn_of_step (h : step m = .ok () m') : ∃ b m₁, m.EndsIn b m₁ := by
  obtain ⟨c, w, p, hc, hr⟩ : m.Resolves := by
    cases hc : m.state.memory[m.state.ip]? with
    | none =>
      simp only [step, hc] at h
      cases h
    | some c =>
      cases hr : resolve m.state m.state.ip c with
      | error t =>
        simp only [step, hc, hr] at h
        cases h
      | ok wp => exact ⟨c, wp.1, wp.2, hc, hr⟩
  rw [step_eq_conclude hc hr] at h
  cases hi : invoke w p (m.begin p) with
  | error f m₁ =>
    rw [hi] at h
    cases h
  | ok u m₂ =>
    obtain ⟨w', q, m₁, hrun, hq⟩ := ends_of_invoke (.first hc hr) hi
    cases q with
    | builtin b => exact ⟨b, m₁, w', m₂, hrun, hq⟩
    | host name contract => cases contract <;> cases hq

/-- A word with next that advances goes on at the cell that was next. -/
theorem ip_of_stateWord {x : Action State Unit} (hx : Advances (fun _ => True) x)
    (h : Builtin.perform.onState x m = .ok none m') : m'.state.ip = m.state.nip := by
  obtain ⟨u, m₁, hu, hrest⟩ := Action.ok_of_bind h
  cases hrest
  exact hx _ _ _ (ok_of_onState hu) trivial

/-- An ordinary word, a MOVE and an INTERPRET that takes a word in end at the next cell. -/
theorem ip_of_perform (hb : b.contract = .ordinary ∨ b = .move ∨ b = .interpret)
    (h : (Primitive.builtin b).perform w m = .ok none m') : m'.state.ip = m.state.nip := by
  rcases hb with hc | rfl | rfl
  · have hspares := Builtin.spares_perform hc w m
    rw [Primitive.perform, hc] at h
    obtain ⟨next, m₁, hb, hrest⟩ := Action.ok_of_bind h
    rw [hb, endState_ok] at hspares
    cases hrest
    exact (Prod.mk.inj hspares).2
  · exact ip_of_stateWord (advances_move _) h
  · obtain ⟨name, m₁, hword, hrest⟩ := Action.ok_of_bind h
    rw [← Builtin.state_of_nextWord hword]
    exact advances_meaning name _ _ _ (ok_of_onState hrest) rfl

/-- A step moves the pointers by what its innermost word does. -/
theorem ip_of_endsIn (he : m.EndsIn b m₁) (hb : b.contract = .ordinary ∨ b = .move ∨ b = .interpret)
    (h : step m = .ok () m') : m'.state.ip = m.state.ip + 1 := by
  obtain ⟨w, m₂, hr, hp⟩ := he
  rw [state_of_endsIn hr hp h, ip_of_perform hb hp]
  exact nip_of_runs hr

theorem takesIn_of_endsIn (he : m.EndsIn .interpret m₁) : m₁.TakesIn := by
  obtain ⟨w, m₂, -, hp⟩ := he
  exact takesIn_of_interpret (w := w) hp

def Aligned (m : Machine) : Prop := m.state.nip = m.state.ip + 1

theorem Aligned.of_pointers (hm : m.Aligned) (h : m'.pointers = m.pointers) : m'.Aligned := by
  obtain ⟨hip, hnip⟩ := Prod.mk.inj h
  change m'.state.nip = m'.state.ip + 1
  rw [hip, hnip]
  exact hm

/-- A step keeps the next cell behind the instruction pointer, also when it fails. -/
theorem Aligned.step (hm : m.Aligned) : (endState (step m)).Aligned := by
  cases hs : ForthMachine.Machine.step m with
  | ok u m' => exact nip_of_step hs
  | error t m' =>
    have hframe := frame_of_step hs
    change m'.state.nip = m'.state.ip + 1
    rw [hframe.ip]
    by_cases hr : m.Resolves
    · exact hframe.nip hr
    · rw [hframe.unresolved hr]
      exact hm

/-- A run keeps the next cell behind the instruction pointer, however it ends. -/
theorem Aligned.run (hm : m.Aligned) (n : Nat) : (m.run n).2.Aligned := by
  induction n generalizing m with
  | zero => exact hm
  | succ n ih =>
    have hstep := hm.step
    rw [Machine.run]
    cases hs : ForthMachine.Machine.step m with
    | ok u m' =>
      rw [hs] at hstep
      exact ih hstep
    | error t m' =>
      rw [hs] at hstep
      simp only
      split <;> exact hstep

theorem aligned_reset (m : Machine) (ip : Word) : (m.reset ip).Aligned := rfl

end Machine

namespace Image

open Machine

variable {m : Machine}

/-- An evaluation starts from a reset and runs. -/
theorem aligned_evaluate (img : Image) (fuel : Nat) (source : Source) (m : Machine) :
    (img.evaluate fuel source m).2.Aligned := by
  have hentered : (img.enter source m).Aligned := rfl
  exact hentered.run fuel

/-- Building the entry of a built-in word moves no pointer. -/
theorem spares_installBuiltin (b : Builtin) : Spares State.pointers (installBuiltin b) :=
  (spares_define _).bind fun _ => (spares_comma _).bind fun _ => spares_modifyFlags _ _

theorem spares_installBuiltins (base : Word) : Spares State.pointers (installBuiltins base) := by
  apply (spares_store _ _).bind
  intro _
  apply (spares_store _ _).bind
  intro _
  apply (spares_store _ _).bind
  intro _
  apply Spares.bind _ fun _ => spares_pure _
  induction Builtin.all with
  | nil => exact spares_pure _
  | cons b bs ih =>
    rw [List.forIn_cons]
    exact ((spares_installBuiltin b).bind fun _ => spares_pure _).bind fun
      | .yield _ => ih
      | .done _ => spares_pure _

theorem aligned_installQuit (hm : m.Aligned) : (installQuit m).2.Aligned := by
  have hspares : Spares State.pointers (do
      discard (State.define "QUIT")
      State.comma (.builtin .docol)
      State.fetchAddress hereAddress) :=
    ((spares_define _).map _).bind fun _ => (spares_comma _).bind fun _ => spares_fetchAddress _
  have hkept := hspares m.state
  rw [installQuit]
  split
  · rename_i heq
    rw [heq, endState_error] at hkept
    exact hm.of_pointers hkept
  · rename_i heq
    rw [heq, endState_ok] at hkept
    split
    · exact hm.of_pointers hkept
    · rfl

/-- An installation resets the machine, builds entries and evaluates the core text. -/
theorem aligned_install (hm : m.Aligned) (fuel : Nat) (base : Word) :
    (install fuel base m).2.Aligned := by
  have hkept := spares_installBuiltins base m.state
  rw [install]
  split
  · split
    · rename_i heq
      rw [heq, endState_error] at hkept
      exact hm.of_pointers hkept
    · rename_i st heq
      rw [heq, endState_ok] at hkept
      have hbuilt : ({ m with state := st } : Machine).Aligned := hm.of_pointers hkept
      have hquit := aligned_installQuit hbuilt
      split
      · rename_i hq
        rw [hq] at hquit
        exact hquit
      · rename_i quit m₁ hq
        have hcore := aligned_evaluate { base, quit } fuel { rest := core.toList } m₁
        simp only
        split <;> rename_i he <;> rw [he] at hcore <;> exact hcore
  · exact hm

end Image

namespace Machine

/-- The machines that a new one becomes, on any devices, by steps, runs, resets, installations and
evaluations in any order, whether these succeed or fail. -/
inductive Reachable : Machine → Prop where
  | new (console : Console) : Reachable { console }
  | attach {m : Machine} (console : Console) : Reachable m → Reachable { m with console }
  | step {m : Machine} : Reachable m → Reachable (endState (step m))
  | run {m : Machine} (n : Nat) : Reachable m → Reachable (m.run n).2
  | reset {m : Machine} (ip : Word) : Reachable m → Reachable (m.reset ip)
  | install {m : Machine} (fuel : Nat) (base : Word) : Reachable m →
      Reachable (Image.install fuel base m).2
  | evaluate {m : Machine} (img : Image) (fuel : Nat) (source : Source) : Reachable m →
      Reachable (img.evaluate fuel source m).2

/-- Between steps the next cell is always the one behind the instruction pointer. -/
theorem Reachable.aligned {m : Machine} (h : m.Reachable) : m.Aligned := by
  induction h with
  | new console => rfl
  | attach console _ ih => exact ih
  | step _ ih => exact ih.step
  | run n _ ih => exact ih.run n
  | reset ip _ _ => exact aligned_reset _ ip
  | install fuel base _ ih => exact Image.aligned_install ih fuel base
  | evaluate img fuel source _ _ => exact Image.aligned_evaluate img fuel source _

/-- On every machine that can be reached, the next cell is the one after the instruction pointer. A step
that succeeds, from whatever machine, leaves the pointers so. It ends in one word; if that is an ordinary
word, a MOVE or an INTERPRET, which takes in a name or a number then, the machine goes on at the next
cell. -/
theorem step_moves_pointers_once :
    (∀ m : Machine, m.Reachable → m.state.nip = m.state.ip + 1) ∧
    ∀ m m' : Machine, step m = .ok () m' →
      m'.state.nip = m'.state.ip + 1 ∧
      (∃ b m₁, m.EndsIn b m₁) ∧
      (∀ m₁, m.EndsIn .interpret m₁ → m₁.TakesIn) ∧
      ∀ b m₁, m.EndsIn b m₁ → b.contract = .ordinary ∨ b = .move ∨ b = .interpret →
        m'.state.ip = m.state.ip + 1 := by
  refine ⟨fun m h => h.aligned, fun m m' h => ?_⟩
  exact ⟨nip_of_step h, endsIn_of_step h, fun m₁ he => takesIn_of_endsIn he,
    fun b m₁ he hb => ip_of_endsIn he hb h⟩

end Machine

namespace NumberAtLastCell

open Machine

/-- A machine at the last cell of all, about to execute an INTERPRET that reads a number. Its next cell is
set to another address. -/
def machine : Machine where
  state := {
    ip := Int64.maxValue
    nip := 5
    memory := Std.ExtTreeMap.insert (Std.ExtTreeMap.insert ∅ Int64.maxValue (.builtin .execute)) 40
      (.builtin .interpret)
    stack := [.ref 40] }
  console := { input := some { rest := ['7'] } }

theorem endsIn_machine : ∃ m₁, machine.EndsIn .interpret m₁ := by
  have hexecute : Runs machine Int64.maxValue (.builtin .execute) (machine.begin (.builtin .execute)) :=
    .first (c := .builtin .execute) (by decide) rfl
  exact ⟨_, 40, _, hexecute.next rfl (by decide), rfl⟩

theorem step_machine : ∃ m', step machine = .ok () m' := ⟨_, rfl⟩

end NumberAtLastCell

namespace Machine

open NumberAtLastCell

/-- A reset and a step that fails keep the pointers together, and a number that is read at the last cell
takes the machine to the first. -/
theorem number_wraps_pointers :
    (∃ t m, step (Machine.reset {} 40) = .error t m ∧ m.state.nip = m.state.ip + 1) ∧
      ∃ m₁ m', machine.EndsIn .interpret m₁ ∧ m₁.TakesIn ∧ step machine = .ok () m' ∧
        m'.state.ip = Int64.minValue ∧ m'.state.nip = m'.state.ip + 1 := by
  obtain ⟨hreach, hstep⟩ := step_moves_pointers_once
  obtain ⟨m₁, he⟩ := endsIn_machine
  obtain ⟨m', hm'⟩ := step_machine
  obtain ⟨hnip, -, htakes, hip⟩ := hstep machine m' hm'
  constructor
  · refine ⟨_, _, rfl, hreach _ ?_⟩
    exact .step (.reset 40 (.new {}))
  · refine ⟨m₁, m', he, htakes m₁ he, hm', ?_, hnip⟩
    rw [hip .interpret m₁ he (.inr (.inr rfl))]
    decide

end Machine

end ForthMachine
