import ForthMachine.Proofs.Machine.Amendment
import ForthMachine.Proofs.Memory.Block
import ForthMachine.Proofs.Words.Operand

namespace ForthMachine

open Memory

def Memory.copiesTo (m : Memory) (target source : Word) : Nat → List Word
  | 0 => []
  | n + 1 =>
    match m[source]? with
    | none => []
    | some c => target :: copiesTo (m.insert target c) (target + 1) (source + 1) n

/-- Copying leaves the addresses to which it does not write alone. -/
theorem Memory.copyUp_outside {m : Memory} {target source a : Word} {n : Nat}
    (h : a ∉ m.copiesTo target source n) : (m.copyUp target source n).1[a]? = m[a]? := by
  induction n generalizing m target source with
  | zero => rfl
  | succ n ih =>
    rw [copiesTo] at h
    rw [copyUp]
    cases hc : m[source]? with
    | none => rfl
    | some c =>
      rw [hc, List.mem_cons, not_or] at h
      exact (ih h.2).trans (getElem?_insert_ne m c (Ne.symm h.1))

namespace Builtin

def isStore : Builtin → Bool
  | store | plusStore | move => true
  | _ => false

def writes (st : State) : Builtin → List Word
  | store =>
    match st.stack with
    | a :: _ :: _ => a.address?.toList
    | _ => []
  | plusStore =>
    match st.stack with
    | a :: n :: _ =>
      match a.address?, n.number? with
      | some a, some _ => if (st.memory[a]?.bind Cell.number?).isSome then [a] else []
      | _, _ => []
    | _ => []
  | move =>
    match st.stack with
    | count :: source :: target :: _ =>
      match target.address?, source.address?, count.address? with
      | some t, some s, some n => st.memory.copiesTo t s n.toInt.toNat
      | _, _, _ => []
    | _ => []
  | _ => []

end Builtin

/-- From one state to another the dictionary is kept, and every cell but those at the given addresses. -/
structure Overwrites (addresses : List Word) (st st' : State) : Prop where
  dictionary : st'.dictionary = st.dictionary
  memory : ∀ a, a ∉ addresses → st'.memory[a]? = st.memory[a]?

theorem overwrites_refl (addresses : List Word) {st st' : State} (h : st'.contents = st.contents) :
    Overwrites addresses st st' := by
  obtain ⟨hm, hd⟩ := Prod.mk.inj h
  refine ⟨hd, fun a _ => ?_⟩
  rw [hm]

theorem overwrites_insert {st st' : State} {a : Word} {c : Cell}
    (hm : st'.memory = st.memory.insert a c) (hd : st'.dictionary = st.dictionary) :
    Overwrites [a] st st' := by
  refine ⟨hd, fun b hb => ?_⟩
  rw [hm, getElem?_insert_ne _ _ (by simpa [eq_comm] using hb)]

namespace Storage

open State

theorem overwrites_store (st : State) :
    Overwrites (Builtin.writes st .store) st (endState (store st)) := by
  obtain ⟨ip, nip, M, D, R, S⟩ := st
  match S with
  | [] => exact overwrites_refl _ rfl
  | [_] => exact overwrites_refl _ rfl
  | a :: c :: s =>
    cases ha : a.address? with
    | none =>
      apply overwrites_refl
      simp [store, ha, contents]
    | some b =>
      simp only [Builtin.writes, ha, Option.toList_some]
      refine overwrites_insert (c := c) ?_ ?_ <;> simp [store, ha]

theorem overwrites_plusStore (st : State) :
    Overwrites (Builtin.writes st .plusStore) st (endState (plusStore st)) := by
  obtain ⟨ip, nip, M, D, R, S⟩ := st
  match S with
  | [] => exact overwrites_refl _ rfl
  | [_] => exact overwrites_refl _ rfl
  | a :: n :: s =>
    cases ha : a.address? with
    | none =>
      apply overwrites_refl
      simp [plusStore, ha, contents]
    | some b =>
      cases hn : n.number? with
      | none =>
        apply overwrites_refl
        simp [plusStore, ha, hn, contents]
      | some k =>
        cases hc : M[b]? with
        | none =>
          apply overwrites_refl
          simp [plusStore, ha, hn, fetch_apply, hc, contents]
        | some c =>
          have hwrites : Builtin.writes ⟨ip, nip, M, D, R, a :: n :: s⟩ .plusStore =
              if c.number?.isSome then [b] else [] := by
            simp only [Builtin.writes, ha, hn, hc, Option.bind_some]
          have hnumber (hne : ∀ v, c ≠ .addr v) : plusStore ⟨ip, nip, M, D, R, a :: n :: s⟩ =
              (do State.store b (.int ((← Action.orRaise c.number? .typeMismatch) + k)) : Action State Unit)
                ⟨ip, nip, M, D, R, s⟩ := by
            cases c <;> simp_all [plusStore, fetch_apply]
          rw [hwrites]
          by_cases hv : ∃ v, c = .addr v
          · obtain ⟨v, rfl⟩ := hv
            have hrun : plusStore ⟨ip, nip, M, D, R, a :: n :: s⟩ =
                .ok () ⟨ip, nip, M.insert b (.addr (v + k)), D, R, s⟩ := by
              simp [plusStore, ha, hn, fetch_apply, hc]
            have hsome : (Cell.addr v).number?.isSome = true := rfl
            rw [if_pos hsome, hrun]
            exact overwrites_insert rfl rfl
          · rw [hnumber fun v h => hv ⟨v, h⟩]
            cases c.number? with
            | none => exact overwrites_refl _ rfl
            | some v => exact overwrites_insert rfl rfl

/-- A MOVE that stops half way has overwritten the cells before that. -/
theorem overwrites_move (st : State) :
    Overwrites (Builtin.writes st .move) st (endState (move st)) := by
  obtain ⟨ip, nip, M, D, R, S⟩ := st
  match S with
  | [] => exact overwrites_refl _ rfl
  | [_] => exact overwrites_refl _ rfl
  | [_, _] => exact overwrites_refl _ rfl
  | count :: source :: target :: s =>
    have hneed : Operand.need 3 (count :: source :: target :: s) = .ok () (count :: source :: target :: s) := by
      rw [Operand.need_apply, if_neg (by simp)]
    cases ht : target.address? with
    | none =>
      apply overwrites_refl
      simp [move, takeMove, hneed, ht, contents]
    | some t =>
      cases hs : source.address? with
      | none =>
        apply overwrites_refl
        simp [move, takeMove, hneed, hs, contents]
      | some u =>
        cases hn : count.address? with
        | none =>
          apply overwrites_refl
          simp [move, takeMove, hneed, hn, contents]
        | some n =>
          simp only [Builtin.writes, ht, hs, hn]
          simp only [move, takeMove, Action.bind_apply, onStack_apply, hneed, Operand.cell_cons, ht, hs,
            hn, Action.pure_apply, Action.get_apply, Action.set_apply]
          cases hcopy : M.copyUp t u n.toInt.toNat with
          | mk memory unwritten =>
            have houtside (a : Word) (ha : a ∉ M.copiesTo t u n.toInt.toNat) : memory[a]? = M[a]? := by
              have h := copyUp_outside ha
              rwa [hcopy] at h
            -- what was copied before an unwritten source address stays copied
            cases unwritten with
            | none => exact ⟨rfl, houtside⟩
            | some a => exact ⟨rfl, houtside⟩

end Storage

def Sink.offerAll (o : Sink) (pieces : List String) : Sink :=
  pieces.foldl (fun o piece => (o.write piece).2) o

def Terminal.listing (entries : List Entry) : List String :=
  (entries.filter fun e => !e.flags.hidden).map (·.name ++ " ")

namespace Machine

open State

variable {α : Type} {n : Nat}

theorem idle_onConsole (x : Action Console α) : Idle Machine.state (onConsole x) :=
  idle_iff_spares.mpr (spares_onConsole x)

/-- What leaves memory and dictionary alone on the state does so on the machine. -/
theorem idle_onState {x : Action State α} (hx : Idle whole x) : Idle Machine.state (onState x) :=
  idle_iff_spares.mpr (idle_iff_spares.mp hx).onState

/-- What builds definitions on the state does so on the machine. -/
theorem builds_onState {x : Action State α} (hx : Builds whole n x) :
    Builds Machine.state n (onState x) := by
  intro m
  rw [state_endState_onState]
  exact hx m.state

theorem idle_nextWord : Idle Machine.state Terminal.nextWord := idle_onConsole _

theorem idle_write (piece : String) : Idle Machine.state (Terminal.write piece) := idle_onConsole _

/-- WORDS offers the name of every entry that is not hidden, with a blank behind it. -/
theorem offer_entries (entries : List Entry) (m : Machine) :
    (forIn entries PUnit.unit fun e _ =>
      if (!e.flags.hidden) = true then do
        Terminal.offer (e.name ++ " ")
        pure (ForInStep.yield PUnit.unit)
      else pure (ForInStep.yield PUnit.unit) : Action Machine PUnit) m =
      .ok .unit { m with console.output := m.console.output.offerAll (Terminal.listing entries) } := by
  induction entries generalizing m with
  | nil => rfl
  | cons e entries ih =>
    rw [List.forIn_cons, Action.bind_apply]
    cases hh : e.flags.hidden with
    | true =>
      have hskip : Terminal.listing (e :: entries) = Terminal.listing entries := by
        simp [Terminal.listing, hh]
      rw [hskip]
      exact ih m
    | false =>
      have hwrite : Terminal.listing (e :: entries) = (e.name ++ " ") :: Terminal.listing entries := by
        simp [Terminal.listing, hh]
      rw [hwrite]
      exact ih _

/-- WORDS writes the names of the visible entries of the chain. -/
theorem words_apply {entries : List Entry} {m : Machine} (h : m.state.chain = (entries, none)) :
    Terminal.words m = .ok () { m with
      console.output := m.console.output.offerAll (Terminal.listing entries ++ ["\n"]) } := by
  simp only [Terminal.words, Action.bind_apply, Action.get_apply, h, offer_entries]
  simp only [Terminal.offer, Action.modify_apply, Sink.offerAll, List.foldl_append]
  rfl

/-- WORDS leaves the state alone, also when the walk meets a trap. -/
theorem spares_words {τ : Type} {part : State → τ} :
    Spares (fun m : Machine => part m.state) Terminal.words := by
  intro m
  cases h : m.state.chain with
  | mk entries trap =>
    cases trap with
    | none =>
      rw [words_apply h]
      rfl
    | some t =>
      simp only [Terminal.words, Action.bind_apply, Action.get_apply, h, Action.throw_apply]
      rfl

theorem idle_words : Idle Machine.state Terminal.words := idle_iff_spares.mpr spares_words

end Machine

namespace Builtin

open Machine State

variable {n : Nat}

theorem idle_finish {x : Action Machine Unit} (hx : Idle Machine.state x) :
    Idle Machine.state (perform.finish x) :=
  hx.bind fun _ => idle_pure _

theorem builds_finish {x : Action Machine Unit} (hx : Builds Machine.state n x) :
    Builds Machine.state n (perform.finish x) :=
  hx.bind_idle fun _ => idle_pure _

theorem idle_stackWord (x : Action (Stack Cell) Unit) : Idle Machine.state (perform.onStack x) :=
  idle_finish (idle_onState (idle_onStack x))

theorem idle_stateWord {x : Action State Unit} (hx : Idle whole x) :
    Idle Machine.state (perform.onState x) :=
  idle_finish (idle_onState hx)

theorem builds_stateWord {x : Action State Unit} (hx : Builds whole n x) :
    Builds Machine.state n (perform.onState x) :=
  builds_finish (builds_onState hx)

theorem idle_topReturn : Idle whole Storage.topReturn :=
  idle_get.bind fun _ => idle_orRaise _ _

theorem idle_takeReturn : Idle whole Storage.takeReturn := by
  refine idle_topReturn.bind fun r => Idle.bind ?_ fun _ => idle_pure r
  exact idle_modify fun _ => rfl

theorem idle_pushReturn (r : Word) : Idle whole (Storage.pushReturn r) := fun _ => rfl

theorem idle_branch : Idle whole Control.branch :=
  idle_get.bind fun _ => (idle_fetch _).bind fun _ => (idle_orRaise _ _).bind fun _ => idle_jump _

theorem idle_zeroBranch : Idle whole Control.zeroBranch := by
  refine (idle_onStack _).bind fun flag => ?_
  split
  · exact idle_branch
  · exact idle_get.bind fun _ => idle_jump _

theorem idle_number : Idle whole Compiler.number := by
  refine (idle_onStack _).bind fun s => ?_
  split
  · exact (idle_push _).bind fun _ => idle_push _
  · exact (idle_push _).bind fun _ => idle_push _

theorem idle_find : Idle whole Compiler.find := by
  refine (idle_onStack _).bind fun name => idle_get.bind fun st => ?_
  split
  · exact idle_push _
  · exact idle_pure _

theorem idle_tick : Idle Machine.state Compiler.tick := by
  refine idle_nextWord.bind fun name => idle_get.bind fun m => ?_
  split
  · exact idle_onState (idle_push _)
  · exact idle_throw _

theorem builds_hidden : Builds whole 0 Compiler.hidden := by
  refine (idle_onStack _).bind_builds fun code => idle_get.bind_builds fun st => ?_
  split
  · exact builds_modifyFlags _ _
  · exact (idle_throw _).builds

/-- A definition begins with three cells of header and one of code. -/
theorem builds_beginDefinition (name : String) : Builds whole 4 (Compiler.beginDefinition name) :=
  (builds_define name).bind fun _ => (builds_comma _).bind fun _ =>
    (builds_modifyFlags _ _).bind fun _ => builds_mode _

theorem builds_semicolon : Builds whole 1 Compiler.semicolon :=
  (builds_comma _).bind fun _ => idle_latest.bind_builds fun _ =>
    (builds_modifyFlags _ _).bind fun _ => builds_mode _

theorem builds_compileLiteral (c : Cell) : Builds whole 2 (Compiler.compileLiteral c) :=
  (builds_comma _).bind fun _ => builds_comma c

/-- A literal takes two cells, a reference one. -/
theorem builds_meaning (name : String) : Builds whole 2 (Compiler.meaning name) := by
  refine idle_get.bind_builds fun st => ?_
  split
  · split
    · exact (idle_pure _).builds.mono (by omega)
    · refine ((builds_comma _).bind_idle fun _ => ?_).mono (by omega)
      exact idle_advance.bind fun _ => idle_pure _
  · split
    · exact (idle_throw _).builds.mono (by omega)
    · have hrest : Idle whole (do advance; pure none : Action State (Option Word)) :=
        idle_advance.bind fun _ => idle_pure _
      split
      · exact (builds_compileLiteral _).bind_idle fun _ => hrest
      · exact ((idle_push _).builds.bind_idle fun _ => hrest).mono (by omega)

/-- Every built-in word but those that store builds definitions, if it changes memory and dictionary
at all. -/
theorem builds_perform {b : Builtin} (hb : b.isStore = false) (w : Word) :
    Builds Machine.state 4 (b.perform w) := by
  have hidle {x : Action Machine (Option Word)} (hx : Idle Machine.state x) : Builds Machine.state 4 x :=
    hx.builds.mono (by omega)
  have hbuild {x : Action State Unit} {n : Nat} (hx : Builds whole n x) (hn : n ≤ 4) :
      Builds Machine.state 4 (perform.onState x) := (builds_stateWord hx).mono hn
  cases b
  case store | plusStore | move => cases hb
  case drop | dup | copySecond | swap | rot | depth | plus | minus | times | divMod | negate | equals
    | less | zeroEquals => exact hidle (idle_stackWord _)
  case here | latest | state => exact hidle (idle_stateWord (idle_push _))
  case toReturn => exact hidle (idle_stateWord ((idle_onStack _).bind fun _ => idle_pushReturn _))
  case fromReturn => exact hidle (idle_stateWord (idle_takeReturn.bind fun _ => idle_push _))
  case copyReturn => exact hidle (idle_stateWord (idle_topReturn.bind fun _ => idle_push _))
  case dropReturn => exact hidle (idle_stateWord (idle_takeReturn.map _))
  case fetch =>
    exact hidle (idle_stateWord ((idle_onStack _).bind fun _ => (idle_fetch _).bind fun _ => idle_push _))
  case lit =>
    exact hidle (idle_stateWord (idle_get.bind fun _ => (idle_fetch _).bind fun _ =>
      (idle_push _).bind fun _ => idle_jump _))
  case branch => exact hidle (idle_stateWord idle_branch)
  case zeroBranch => exact hidle (idle_stateWord idle_zeroBranch)
  case docol =>
    exact hidle (idle_stateWord (idle_get.bind fun _ => (idle_pushReturn _).bind fun _ => idle_jump _))
  case exit => exact hidle (idle_stateWord (idle_takeReturn.bind fun _ => idle_jump _))
  case execute => exact hidle ((idle_onState (idle_onStack _)).map _)
  case key => exact hidle (idle_finish ((idle_onConsole _).bind fun _ => idle_onState (idle_push _)))
  case emit | dot =>
    exact hidle (idle_finish ((idle_onState (idle_onStack _)).bind fun _ => idle_write _))
  case cr => exact hidle (idle_finish (idle_write _))
  case words => exact hidle (idle_finish idle_words)
  case word => exact hidle (idle_finish (idle_nextWord.bind fun _ => idle_onState (idle_push _)))
  case find => exact hidle (idle_stateWord idle_find)
  case number => exact hidle (idle_stateWord idle_number)
  case comma => exact hbuild ((idle_onStack _).bind_builds fun _ => builds_comma _) (by omega)
  case create =>
    refine hbuild ((idle_onStack _).bind_builds fun name => ?_) (Nat.le_succ 3)
    exact (builds_define name).map _
  case immediate => exact hbuild (idle_latest.bind_builds fun _ => builds_modifyFlags _ _) (by omega)
  case hidden => exact hbuild builds_hidden (by omega)
  case leftBracket | rightBracket => exact hbuild (builds_mode _) (by omega)
  case colon =>
    exact builds_finish (idle_nextWord.bind_builds fun name =>
      builds_onState (builds_beginDefinition name))
  case semicolon => exact hbuild builds_semicolon (by omega)
  case tick => exact hidle (idle_finish idle_tick)
  case literal => exact hbuild ((idle_onStack _).bind_builds fun _ => builds_compileLiteral _) (by omega)
  case interpret =>
    exact (idle_nextWord.bind_builds fun name => builds_onState (builds_meaning name)).mono (by omega)
  case trace =>
    refine hidle (idle_finish ((idle_onState (idle_onStack _)).bind fun flag => ?_))
    exact idle_modify fun _ => rfl
  case bye => exact hidle (idle_throw _)

/-- A word that stores overwrites the cells that it writes to. -/
theorem overwrites_perform {b : Builtin} (hb : b.isStore = true) (w : Word) (m : Machine) :
    Overwrites (b.writes m.state) m.state (endState (b.perform w m)).state := by
  have hstate (x : Action State Unit) :
      (endState (perform.onState x m)).state = endState (x m.state) := by
    rw [perform_onState_apply]
    cases x m.state <;> rfl
  cases b <;> cases hb
  case store => exact (hstate Storage.store).symm ▸ Storage.overwrites_store m.state
  case plusStore => exact (hstate Storage.plusStore).symm ▸ Storage.overwrites_plusStore m.state
  case move => exact (hstate Storage.move).symm ▸ Storage.overwrites_move m.state

end Builtin

end ForthMachine
