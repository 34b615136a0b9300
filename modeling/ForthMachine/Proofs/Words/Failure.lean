import ForthMachine.Proofs.Machine.Recoil
import ForthMachine.Proofs.Words.Contents

namespace ForthMachine

open Memory

namespace Operand

/-- A division by zero fails when both operands are gone. -/
theorem balks_divMod : Balks Calculation.divMod := by
  apply balks_need
  refine pops_number.bind fun y => pops_number.bind fun x => ?_
  -- a division by zero has taken both numbers
  intro s f s' _ h
  by_cases hy : y = 0
  · rw [if_pos hy] at h
    cases h
    exact ⟨⟨0, rfl⟩, by decide⟩
  · rw [if_neg hy] at h
    cases h

theorem balks_equals : Balks Calculation.equals := by
  apply balks_need
  refine pops_cell.bind fun y => pops_cell.bind fun x => ?_
  exact suffices_of_succeeds (n := 0) (succeeds_modify _)

end Operand

namespace Compiler

open State

/-- Once its first cell is compiled, a literal is compiled. -/
theorem refuses_compileLiteral (c : Cell) : Refuses whole (compileLiteral c) := by
  intro st f st' h
  refine refuses_comma _ st f st' (Action.error_of_bind_ok (fun _ st₁ hc => ?_) h)
  obtain ⟨st₂, hc'⟩ := (anchored_of_comma hc).comma c
  exact ⟨(), st₂, hc'⟩

/-- Once its header is built, a definition is begun. -/
theorem refuses_beginDefinition (name : String) : Refuses whole (beginDefinition name) := by
  intro st f st' h
  refine refuses_define name st f st' (Action.error_of_bind_ok (fun i st₁ hd => ?_) h)
  obtain ⟨st₂, hc⟩ := (anchored_of_define hd).comma (.builtin .docol)
  rw [Action.bind_apply, hc]
  exact (succeeds_modifyFlags _ _).bind (fun _ => succeeds_store _ _) st₂

theorem refuses_meaning (name : String) : Refuses whole (meaning name) := by
  have hrest : Succeeds (do advance; pure none : Action State (Option Word)) :=
    succeeds_advance.bind fun _ => succeeds_pure _
  refine .get_bind fun st => ?_
  split
  · split
    · exact (succeeds_pure _).refuses
    · exact (refuses_comma _).bind_succeeds fun _ => hrest
  · split
    · exact refuses_throw (by simp [Failure.IsUnderflow])
    · split
      · exact (refuses_compileLiteral _).bind_succeeds fun _ => hrest
      · exact ((succeeds_push _).bind fun _ => hrest).refuses

end Compiler

namespace Terminal

open Machine

theorem not_underflow_failureOf (e : Ending) : ¬(failureOf e).IsUnderflow := by
  cases e <;> simp [failureOf, Failure.IsUnderflow]

theorem refuses_read {α : Type} (next : Source → Except Ending α × Source) :
    Refuses Machine.state (onConsole (read next)) := by
  apply refuses_onConsole
  intro c f c' h
  cases hi : c.input with
  | none =>
    simp only [read, Action.bind_apply, Action.get_apply, hi] at h
    cases h
    decide
  | some source =>
    simp only [read, Action.bind_apply, Action.get_apply, hi, Action.modify_apply] at h
    cases hn : (next source).1 with
    | ok a =>
      simp only [hn] at h
      cases h
    | error e =>
      simp only [hn] at h
      cases h
      exact not_underflow_failureOf e

theorem refuses_write (piece : String) : Refuses Machine.state (write piece) := by
  apply refuses_onConsole
  intro c f c' h
  simp only [Action.bind_apply, Action.get_apply, Action.set_apply] at h
  cases hw : (c.output.write piece).1 with
  | none =>
    simp only [hw] at h
    cases h
  | some reason =>
    simp only [hw] at h
    cases h
    simp [Failure.IsUnderflow]

theorem fault_of_chainAux {st : State} {fuel : Nat} {followed : List Word} {c : Cell} {t : Trap}
    (h : (st.chainAux fuel followed c).2 = some t) : t.kind.IsFault := by
  induction fuel generalizing followed c with
  | zero => cases h
  | succ fuel ih =>
    simp only [State.chainAux] at h
    split at h
    · cases h
    split at h
    · cases h
      exact .inr (.inr rfl)
    split at h
    · cases h
      exact .inr (.inr rfl)
    split at h
    · next hp =>
      cases h
      exact State.fault_of_headerPosition hp
    split at h
    · cases h
      exact .inl rfl
    · exact ih h

/-- The walk along the headers fails for what memory holds. -/
theorem fault_of_chain {st : State} {t : Trap} (h : st.chain.2 = some t) : t.kind.IsFault := by
  rw [State.chain] at h
  cases hc : st.memory[latestAddress]? with
  | none =>
    rw [hc] at h
    cases h
  | some c =>
    rw [hc] at h
    exact fault_of_chainAux h

/-- WORDS leaves the state alone. -/
theorem refuses_words : Refuses Machine.state words := by
  intro m f m' h
  cases hc : m.state.chain with
  | mk entries trap =>
    cases trap with
    | none =>
      rw [words_apply hc] at h
      cases h
    | some t =>
      simp only [words, Action.bind_apply, Action.get_apply, hc, Action.throw_apply] at h
      cases h
      exact ⟨rfl, Failure.not_underflow_of_fault (fault_of_chain (congrArg Prod.snd hc))⟩

end Terminal

/-- Copying stops at a source address that was never written, after all cells before it are copied. -/
theorem Memory.copyUp_unwritten {M M' : Memory} {target source a : Word} {n : Nat}
    (h : M.copyUp target source n = (M', some a)) :
    ∃ k, k < n ∧ M.copyUp target source k = (M', none) ∧ a = source.plus k ∧ M'[a]? = none := by
  induction n generalizing M target source with
  | zero => cases h
  | succ n ih =>
    rw [copyUp] at h
    cases hc : M[source]? with
    | none =>
      rw [hc] at h
      cases h
      exact ⟨0, Nat.succ_pos n, rfl, by simp, hc⟩
    | some c =>
      rw [hc] at h
      obtain ⟨k, hk, hcopy, ha, hnone⟩ := ih h
      refine ⟨k + 1, Nat.succ_lt_succ hk, ?_, ?_, hnone⟩
      · rw [copyUp, hc]
        exact hcopy
      · rw [ha, Word.add_one, Word.plus_plus, Nat.add_comm]

/-- What a word that fails when it is half done has made of a state. -/
inductive Halfway (st : State) : Builtin → State → Prop where
  /-- The cells before an unwritten source address are copied. -/
  | move {count source target : Cell} {rest : Stack Cell} {t s n : Word} {k : Nat} {memory : Memory} :
      st.stack = count :: source :: target :: rest → target.address? = some t →
      source.address? = some s → count.address? = some n → k < n.toInt.toNat →
      st.memory.copyUp t s k = (memory, none) → memory[s.plus k]? = none →
      Halfway st .move { st with stack := rest, memory }
  /-- The end of the definition is compiled. -/
  | semicolon {d : Cell} {h : Word} : st.memory[hereAddress]? = some d → d.address? = some h →
      Halfway st .semicolon { st with
        memory := (st.memory.insert h (.builtin .exit)).insert hereAddress (.addr (h + 1)) }

namespace Storage

open State

theorem recoils_topReturn : Recoils whole topReturn := by
  intro st f st' h
  cases hr : st.returns.head? with
  | none =>
    simp only [topReturn, Action.bind_apply, Action.get_apply, hr] at h
    cases h
    exact ⟨0, rfl, fun _ => rfl⟩
  | some r =>
    simp only [topReturn, Action.bind_apply, Action.get_apply, hr] at h
    cases h

theorem recoils_takeReturn : Recoils whole takeReturn :=
  recoils_topReturn.bind fun _ => (succeeds_modify _).bind fun _ => succeeds_pure _

/-- An address that was never written is noticed when the operands are gone. -/
theorem recoils_plusStore : Recoils whole plusStore := by
  refine (recoils_onStack (Operand.balks_pair Operand.pops_address Operand.pops_number)).bind_refuses
    (trims_onStack (Operand.takes_pair Operand.pops_address Operand.pops_number)) fun (a, n) => ?_
  refine (refuses_fetch a).bind (reads_fetch a) fun c => ?_
  split
  · exact (succeeds_store _ _).refuses
  · exact (refuses_orRaise _ (by decide)).bind_succeeds fun _ => succeeds_store _ _

/-- MOVE makes sure of its three operands. -/
theorem balks_takeMove : Operand.Balks takeMove := by
  apply Operand.balks_need
  refine Operand.pops_cell.bind fun count => Operand.pops_cell.bind fun source =>
    Operand.pops_cell.bind fun target => ?_
  split
  · exact Operand.suffices_of_succeeds (n := 0) (succeeds_pure _)
  · intro s f s' _ h
    cases h
    exact ⟨⟨0, rfl⟩, by decide⟩

/-- The operands of a MOVE. -/
theorem stack_of_takeMove {stack rest : Stack Cell} {t s n : Word}
    (h : takeMove stack = .ok (t, s, n) rest) :
    ∃ count source target, stack = count :: source :: target :: rest ∧ target.address? = some t ∧
      source.address? = some s ∧ count.address? = some n := by
  match stack with
  | [] => cases h
  | [_] => cases h
  | [_, _] => cases h
  | count :: source :: target :: rest =>
    have hneed : Operand.need 3 (count :: source :: target :: rest) =
        .ok () (count :: source :: target :: rest) := by
      rw [Operand.need_apply, if_neg (by simp)]
    simp only [takeMove, Action.bind_apply, hneed, Operand.cell_cons] at h
    cases ht : target.address? <;> cases hs : source.address? <;> cases hn : count.address? <;>
      simp only [ht, hs, hn] at h <;> cases h
    exact ⟨count, source, target, rfl, ht, hs, hn⟩

/-- A MOVE fails for its operands, or at a source address that was never written. -/
theorem move_error {st st' : State} {f : Failure} (h : move st = .error f st') :
    (∃ k, st' = st.taking k ∧ (f.IsUnderflow → k = 0)) ∨ Halfway st .move st' ∧ f.kind.IsFault := by
  rcases Action.error_of_bind h with h | ⟨⟨t, s, n⟩, st₁, ha, h⟩
  · exact .inl (recoils_onStack balks_takeMove st f st' h)
  · obtain ⟨rest, hrest, rfl⟩ := Action.ok_of_zoom ha
    obtain ⟨count, source, target, hstack, ht, hs, hn⟩ := stack_of_takeMove hrest
    simp only [Action.bind_apply, Action.get_apply, Action.set_apply] at h
    cases hcopy : st.memory.copyUp t s n.toInt.toNat with
    | mk memory unwritten =>
      rw [hcopy] at h
      cases unwritten with
      | none => cases h
      | some a =>
        cases h
        obtain ⟨k, hk, hcopied, rfl, hnone⟩ := copyUp_unwritten hcopy
        exact .inr ⟨.move hstack ht hs hn hk hcopied hnone, .inl rfl⟩

end Storage

namespace Compiler

open State

/-- A `;` fails before it has done anything, or after it has compiled the end of the definition. -/
theorem semicolon_error {st st' : State} {f : Failure} (h : semicolon st = .error f st') :
    st' = st ∨ Halfway st .semicolon st' ∧ f.kind.IsFault := by
  rcases Action.error_of_bind h with h | ⟨u, st₁, hc, h⟩
  · exact .inl (refuses_comma _ st f st' h).1
  · have hlatest : latest st₁ = .error f st' := by
      refine error_of_bind_succeeds (fun i => ?_) h
      exact (succeeds_modifyFlags _ _).bind fun _ => succeeds_store _ _
    obtain ⟨rfl, -⟩ := refuses_latest st₁ f st' hlatest
    obtain ⟨d, a, hd, ha, rfl⟩ := ok_of_comma hc
    exact .inr ⟨.semicolon hd ha, fault_of_latest hlatest⟩

theorem recoils_hidden : Recoils whole hidden := by
  refine recoils_pops_bind Operand.pops_token fun code => .get_bind fun st => ?_
  split
  · exact (succeeds_modifyFlags _ _).refuses
  · exact refuses_throw (by simp [Failure.IsUnderflow])

theorem recoils_find : Recoils whole find := by
  refine recoils_pops_bind Operand.pops_text fun name => .get_bind fun st => ?_
  split
  · exact (succeeds_push _).refuses
  · exact (succeeds_pure _).refuses

theorem recoils_number : Recoils whole number := by
  refine recoils_pops_bind Operand.pops_text fun text => ?_
  split
  · exact ((succeeds_push _).bind fun _ => succeeds_push _).refuses
  · exact ((succeeds_push _).bind fun _ => succeeds_push _).refuses

theorem refuses_tick (name : String) : Refuses Machine.state (do
    match (← get : Machine).state.dictionary.find? name with
    | some e => Machine.onState (push (.ref e.code))
    | none => unknown name) := by
  refine .get_bind fun m => ?_
  split
  · exact (Machine.succeeds_onState (succeeds_push _)).refuses
  · exact refuses_throw (by simp [Failure.IsUnderflow])

end Compiler

namespace Control

open State

theorem refuses_branch : Refuses whole branch :=
  .get_bind fun _ => (refuses_fetch _).bind (reads_fetch _) fun _ =>
    (refuses_orRaise _ (by decide)).bind_succeeds fun _ => succeeds_jump _

theorem refuses_lit : Refuses whole lit :=
  .get_bind fun _ => (refuses_fetch _).bind_succeeds fun _ =>
    (succeeds_push _).bind fun _ => succeeds_jump _

/-- The offset is read when the flag is gone. -/
theorem recoils_zeroBranch : Recoils whole zeroBranch := by
  refine recoils_pops_bind Operand.pops_cell fun flag => ?_
  split
  · exact refuses_branch
  · exact .get_bind fun _ => (succeeds_jump _).refuses

end Control

namespace Builtin

open Machine State Operand

theorem recoils_finish {x : Action Machine Unit} (hx : Recoils Machine.state x) :
    Recoils Machine.state (perform.finish x) :=
  hx.bind fun _ => succeeds_pure _

theorem recoils_stateWord {x : Action State Unit} (hx : Recoils whole x) :
    Recoils Machine.state (perform.onState x) :=
  recoils_finish (recoils_onState hx)

theorem recoils_stackWord {x : Action (Stack Cell) Unit} (hx : Balks x) :
    Recoils Machine.state (perform.onStack x) :=
  recoils_stateWord (recoils_onStack hx)

/-- Every word but MOVE and `;` has only taken cells when it fails. -/
theorem recoils_perform {b : Builtin} (hm : b ≠ .move) (hs : b ≠ .semicolon) (w : Word) :
    Recoils Machine.state (b.perform w) := by
  have hstate {x : Action State Unit} (hx : Refuses whole x) : Recoils Machine.state (perform.onState x) :=
    recoils_stateWord hx.recoils
  have hword {α : Type} {g : String → Action Machine α} (hg : ∀ name, Refuses Machine.state (g name)) :
      Recoils Machine.state (Terminal.nextWord >>= g) :=
    ((Terminal.refuses_read _).bind (reads_onConsole _) hg).recoils
  have hoperand {α : Type} {x : Action (Stack Cell) α} {g : α → Action State Unit} (hx : Pops x)
      (hg : ∀ a, Refuses whole (g a)) : Recoils Machine.state (perform.onState (onStack x >>= g)) :=
    recoils_stateWord (State.recoils_pops_bind hx hg)
  cases b
  case move => exact absurd rfl hm
  case semicolon => exact absurd rfl hs
  case drop => exact recoils_stackWord fun s f s' h => pops_cell.balks s f s' (Action.error_of_map h)
  case dup | copySecond | swap | rot => exact recoils_stackWord (balks_rearrange _)
  case depth => exact recoils_stackWord fun _ _ _ h => nomatch h
  case plus | minus | times | less => exact recoils_stackWord (balks_binary _)
  case divMod => exact recoils_stackWord balks_divMod
  case equals => exact recoils_stackWord balks_equals
  case negate => exact recoils_stackWord (pops_number.balks.bind fun _ => succeeds_modify _)
  case zeroEquals => exact recoils_stackWord (pops_cell.balks.bind fun _ => succeeds_modify _)
  case toReturn => exact hoperand pops_number fun _ => (succeeds_modify _).refuses
  case fromReturn => exact recoils_stateWord (Storage.recoils_takeReturn.bind fun _ => succeeds_push _)
  case copyReturn => exact recoils_stateWord (Storage.recoils_topReturn.bind fun _ => succeeds_push _)
  case dropReturn => exact recoils_stateWord (Storage.recoils_takeReturn.map _)
  case fetch =>
    exact hoperand pops_address fun a => (refuses_fetch a).bind_succeeds fun _ => succeeds_push _
  case store =>
    have hpair := balks_pair pops_address pops_cell
    exact recoils_stateWord ((recoils_onStack hpair).bind fun _ => succeeds_store _ _)
  case plusStore => exact recoils_stateWord Storage.recoils_plusStore
  case here | latest | state => exact hstate (succeeds_push _).refuses
  case lit => exact hstate Control.refuses_lit
  case branch => exact hstate Control.refuses_branch
  case zeroBranch => exact recoils_stateWord Control.recoils_zeroBranch
  case docol =>
    refine hstate (.get_bind fun _ => Succeeds.refuses ?_)
    exact (succeeds_modify _).bind fun _ => succeeds_jump _
  case exit => exact recoils_stateWord (Storage.recoils_takeReturn.bind fun _ => succeeds_jump _)
  case execute => exact (recoils_onState (recoils_onStack pops_token.balks)).map _
  -- the words on the devices; what they read is gone even if they fail, but that is not in the state
  case key =>
    refine recoils_finish (Refuses.recoils ?_)
    exact (Terminal.refuses_read _).bind_succeeds fun _ => succeeds_onState (succeeds_push _)
  case emit =>
    have hcode := pops_read Cell.code? (f := .ofKind .typeMismatch) (by decide)
    exact recoils_finish (Machine.recoils_pops_bind hcode fun _ => Terminal.refuses_write _)
  case dot => exact recoils_finish (Machine.recoils_pops_bind pops_cell fun _ => Terminal.refuses_write _)
  case cr => exact recoils_finish (Terminal.refuses_write _).recoils
  case words => exact recoils_finish Terminal.refuses_words.recoils
  case word => exact recoils_finish (hword fun _ => (succeeds_onState (succeeds_push _)).refuses)
  case find => exact recoils_stateWord Compiler.recoils_find
  case number => exact recoils_stateWord Compiler.recoils_number
  case comma => exact hoperand pops_cell refuses_comma
  case create =>
    exact hoperand pops_text fun name st f st' h => refuses_define name st f st' (Action.error_of_map h)
  case immediate => exact hstate (refuses_latest.bind_succeeds fun _ => succeeds_modifyFlags _ _)
  case hidden => exact recoils_stateWord Compiler.recoils_hidden
  case leftBracket | rightBracket => exact hstate (succeeds_store _ _).refuses
  case colon => exact recoils_finish (hword fun name => refuses_onState (Compiler.refuses_beginDefinition name))
  case tick => exact recoils_finish (hword Compiler.refuses_tick)
  case literal => exact hoperand pops_cell Compiler.refuses_compileLiteral
  case interpret => exact hword fun name => refuses_onState (Compiler.refuses_meaning name)
  case trace => exact recoils_finish (Machine.recoils_pops_bind pops_cell fun _ => (succeeds_modify _).refuses)
  case bye => exact (refuses_throw (by decide)).recoils

/-- What a word has done when it fails: it has only taken cells, or it is half done. -/
theorem recoils_or_halfway {b : Builtin} {w : Word} {m m' : Machine} {f : Failure}
    (h : b.perform w m = .error f m') :
    (∃ k, m'.state = m.state.taking k ∧ (f.IsUnderflow → k = 0)) ∨
      Halfway m.state b m'.state ∧ f.kind.IsFault := by
  have hstate {x : Action State Unit} (hx : perform.onState x m = .error f m') :
      x m.state = .error f m'.state :=
    error_of_onState (error_of_bind_succeeds (fun _ => succeeds_pure _) hx)
  by_cases hm : b = .move
  · subst hm
    exact Storage.move_error (hstate h)
  by_cases hs : b = .semicolon
  · subst hs
    rcases Compiler.semicolon_error (hstate h) with hst | hhalf
    · exact .inl ⟨0, hst, fun _ => rfl⟩
    · exact .inr hhalf
  exact .inl (recoils_perform hm hs w m f m' h)

end Builtin

end ForthMachine
