import ForthMachine.Proofs.Words.Failure

namespace ForthMachine

open Memory

def Failure.IsAnonymous (f : Failure) : Prop := ∃ t, f = .trap t ∧ t.word = ""

/-- The action fails by traps without a name. -/
def Anonymous {σ α : Type} (x : Action σ α) : Prop := ∀ s f s', x s = .error f s' → f.IsAnonymous

section Anonymous

variable {σ τ α β : Type} {x : Action σ α} {g : α → Action σ β}

theorem Failure.isAnonymous_trap {t : Trap} (h : t.word = "") : (trap t).IsAnonymous := ⟨t, rfl, h⟩

theorem succeeds_set (s : σ) : Succeeds (set s : Action σ PUnit) := fun _ => ⟨_, s, rfl⟩

/-- What does not fail bears no name. -/
theorem Succeeds.anonymous (hx : Succeeds x) : Anonymous x := fun _ _ _ h => absurd h hx.ne_error

/-- Failures without a name, one action after another. -/
theorem Anonymous.bind (hx : Anonymous x) (hg : ∀ a, Anonymous (g a)) : Anonymous (x >>= g) := by
  intro s f s' h
  rcases Action.error_of_bind h with h | ⟨a, s₁, -, h⟩
  · exact hx s f s' h
  · exact hg a s₁ f s' h

theorem Anonymous.map (hx : Anonymous x) (k : α → β) : Anonymous (k <$> x) :=
  fun s f s' h => hx s f s' (Action.error_of_map h)

theorem Anonymous.get_bind {g : σ → Action σ β} (hg : ∀ s, Anonymous (g s)) : Anonymous (get >>= g) :=
  fun s f s' h => hg s s f s' h

theorem Anonymous.zoom (hx : Anonymous x) (get : τ → σ) (set : σ → τ → τ) : Anonymous (x.zoom get set) := by
  intro t f t' h
  obtain ⟨s, hs, -⟩ := Action.error_of_zoom h
  exact hx _ _ _ hs

theorem anonymous_throw {f : Failure} (hf : f.IsAnonymous) : Anonymous (throw f : Action σ α) := by
  intro s f' s' h
  cases h
  exact hf

theorem anonymous_raise (kind : Trap.Kind) : Anonymous (Action.raise kind : Action σ α) :=
  anonymous_throw ⟨_, rfl, rfl⟩

theorem anonymous_raiseAt (kind : Trap.Kind) (a : Word) : Anonymous (Action.raiseAt kind a : Action σ α) :=
  anonymous_throw ⟨_, rfl, rfl⟩

theorem anonymous_orRaise (o : Option α) (kind : Trap.Kind) :
    Anonymous (Action.orRaise o kind : Action σ α) := by
  cases o with
  | none => exact anonymous_raise kind
  | some a => exact (succeeds_pure a).anonymous

theorem anonymous_orRaiseAt (o : Option α) (kind : Trap.Kind) (a : Word) :
    Anonymous (Action.orRaiseAt o kind a : Action σ α) := by
  cases o with
  | none => exact anonymous_raiseAt kind a
  | some a => exact (succeeds_pure a).anonymous

end Anonymous

namespace Operand

theorem anonymous_need (n : Nat) : Anonymous (need n) := by
  refine .get_bind fun s => ?_
  split
  · exact anonymous_raise _
  · exact (succeeds_pure _).anonymous

theorem anonymous_cell : Anonymous cell := by
  refine .get_bind fun s => ?_
  split
  · exact ((succeeds_set _).bind fun _ => succeeds_pure _).anonymous
  · exact anonymous_raise _

theorem anonymous_number : Anonymous number := anonymous_cell.bind fun _ => anonymous_orRaise _ _

theorem anonymous_text : Anonymous text := anonymous_cell.bind fun _ => anonymous_orRaise _ _

theorem anonymous_address : Anonymous address := anonymous_cell.bind fun _ => anonymous_orRaiseAt _ _ _

theorem anonymous_token : Anonymous token := anonymous_cell.bind fun _ => anonymous_orRaiseAt _ _ _

theorem succeeds_push (c : Cell) : Succeeds (push c) := succeeds_modify _

theorem anonymous_rearrange (k : Stack Cell → Option (Stack Cell)) : Anonymous (rearrange k) := by
  refine .get_bind fun s => ?_
  split
  · exact (succeeds_set _).anonymous
  · exact anonymous_raise _

theorem anonymous_binary (k : Word → Word → Cell) : Anonymous (binary k) :=
  (anonymous_need 2).bind fun _ => anonymous_number.bind fun _ => anonymous_number.bind fun _ =>
    (succeeds_push _).anonymous

theorem anonymous_divMod : Anonymous Calculation.divMod := by
  refine (anonymous_need 2).bind fun _ => anonymous_number.bind fun y => anonymous_number.bind fun x => ?_
  have hrest : Succeeds (do push (.int (x % y)); push (.int (x / y))) :=
    (succeeds_push _).bind fun _ => succeeds_push _
  split
  · exact (anonymous_raise _).bind fun _ => hrest.anonymous
  · exact hrest.anonymous

theorem anonymous_equals : Anonymous Calculation.equals :=
  (anonymous_need 2).bind fun _ => anonymous_cell.bind fun _ => anonymous_cell.bind fun _ =>
    (succeeds_push _).anonymous

end Operand

namespace State

variable {α : Type}

theorem anonymous_onStack {x : Action (Stack Cell) α} (hx : Anonymous x) : Anonymous (onStack x) :=
  hx.zoom _ _

theorem anonymous_fetch (a : Word) : Anonymous (fetch a) := .get_bind fun _ => anonymous_orRaiseAt _ _ _

theorem anonymous_fetchAddress (a : Word) : Anonymous (fetchAddress a) :=
  (anonymous_fetch a).bind fun _ => anonymous_orRaiseAt _ _ _

theorem anonymous_comma (c : Cell) : Anonymous (comma c) :=
  (anonymous_fetchAddress _).bind fun _ => ((succeeds_store _ _).bind fun _ => succeeds_store _ _).anonymous

theorem word_of_latestLink {st : State} {t : Trap} (h : st.latestLink = .error t) : t.word = "" := by
  unfold latestLink at h
  split at h
  · cases h
  · cases h
  · split at h
    · cases h
    · cases h
      rfl

theorem anonymous_define (name : String) : Anonymous (define name) := by
  refine (anonymous_fetchAddress _).bind fun h => .get_bind fun st => ?_
  cases hl : st.latestLink with
  | error t => exact anonymous_throw (Failure.isAnonymous_trap (word_of_latestLink hl))
  | ok link =>
    intro st f st' he
    cases he

theorem word_of_headerPosition {st : State} {link : Word} {t : Trap}
    (h : st.headerPosition link = .error t) : t.word = "" := by
  unfold headerPosition at h
  split at h
  · cases h
    rfl
  · split at h
    · cases h
    · cases h
      rfl

theorem anonymous_latest : Anonymous latest := by
  refine (anonymous_fetchAddress _).bind fun link => .get_bind fun st => ?_
  cases hp : st.headerPosition link with
  | ok i => exact (succeeds_pure i).anonymous
  | error t => exact anonymous_throw (Failure.isAnonymous_trap (word_of_headerPosition hp))

theorem word_of_chainAux {st : State} {fuel : Nat} {followed : List Word} {c : Cell} {t : Trap}
    (h : (st.chainAux fuel followed c).2 = some t) : t.word = "" := by
  fun_induction chainAux st fuel followed c
  case case1 | case2 => cases h
  case case3 | case4 | case6 =>
    cases h
    rfl
  case case5 hp =>
    cases h
    exact word_of_headerPosition hp
  case case7 hrest ih =>
    rw [hrest] at ih
    exact ih h

/-- The walk along the headers leaves the name to the machine. -/
theorem word_of_chain {st : State} {t : Trap} (h : st.chain.2 = some t) : t.word = "" := by
  rw [chain] at h
  cases hc : st.memory[latestAddress]? with
  | none =>
    rw [hc] at h
    cases h
  | some c =>
    rw [hc] at h
    exact word_of_chainAux h

end State

open State

namespace Storage

theorem anonymous_topReturn : Anonymous topReturn := .get_bind fun _ => anonymous_orRaise _ _

theorem anonymous_takeReturn : Anonymous takeReturn :=
  anonymous_topReturn.bind fun _ => ((succeeds_modify _).bind fun _ => succeeds_pure _).anonymous

theorem anonymous_store : Anonymous store := by
  refine (anonymous_onStack ?_).bind fun _ => (succeeds_store _ _).anonymous
  exact (Operand.anonymous_need 2).bind fun _ => Operand.anonymous_address.bind fun _ =>
    Operand.anonymous_cell.bind fun _ => (succeeds_pure _).anonymous

theorem anonymous_plusStore : Anonymous plusStore := by
  refine (anonymous_onStack ?_).bind fun (a, n) => (anonymous_fetch a).bind fun c => ?_
  · exact (Operand.anonymous_need 2).bind fun _ => Operand.anonymous_address.bind fun _ =>
      Operand.anonymous_number.bind fun _ => (succeeds_pure _).anonymous
  · split
    · exact (succeeds_store _ _).anonymous
    · exact (anonymous_orRaise _ _).bind fun _ => (succeeds_store _ _).anonymous

theorem anonymous_takeMove : Anonymous takeMove := by
  refine (Operand.anonymous_need 3).bind fun _ => Operand.anonymous_cell.bind fun _ =>
    Operand.anonymous_cell.bind fun _ => Operand.anonymous_cell.bind fun _ => ?_
  split
  · exact (succeeds_pure _).anonymous
  · exact anonymous_raiseAt _ _

theorem anonymous_move : Anonymous move := by
  refine (anonymous_onStack anonymous_takeMove).bind fun (target, source, count) => .get_bind fun st => ?_
  refine (succeeds_set _).anonymous.bind fun _ => ?_
  split
  · exact succeeds_advance.anonymous
  · exact anonymous_raiseAt _ _

end Storage

namespace Control

theorem anonymous_lit : Anonymous lit :=
  .get_bind fun _ => (anonymous_fetch _).bind fun _ =>
    ((succeeds_push _).bind fun _ => succeeds_jump _).anonymous

theorem anonymous_branch : Anonymous branch :=
  .get_bind fun _ => (anonymous_fetch _).bind fun _ => (anonymous_orRaise _ _).bind fun _ =>
    (succeeds_jump _).anonymous

theorem anonymous_zeroBranch : Anonymous zeroBranch := by
  refine (anonymous_onStack Operand.anonymous_cell).bind fun flag => ?_
  split
  · exact anonymous_branch
  · exact .get_bind fun _ => (succeeds_jump _).anonymous

end Control

namespace Terminal

open Machine

variable {α : Type}

theorem isAnonymous_failureOf (e : Ending) : (failureOf e).IsAnonymous := by
  cases e <;> exact ⟨_, rfl, rfl⟩

theorem anonymous_read (next : Source → Except Ending α × Source) : Anonymous (onConsole (read next)) := by
  refine Anonymous.zoom ?_ _ _
  refine .get_bind fun c => ?_
  split
  · exact anonymous_throw (isAnonymous_failureOf _)
  · refine (succeeds_modify _).anonymous.bind fun _ => ?_
    split
    · exact (succeeds_pure _).anonymous
    · exact anonymous_throw (isAnonymous_failureOf _)

theorem anonymous_write (piece : String) : Anonymous (write piece) := by
  refine Anonymous.zoom ?_ _ _
  refine .get_bind fun c => ?_
  refine (succeeds_set _).anonymous.bind fun _ => ?_
  split
  · exact (succeeds_pure _).anonymous
  · exact anonymous_throw ⟨_, rfl, rfl⟩

/-- WORDS passes on the trap that the walk has met. -/
theorem anonymous_words : Anonymous words := by
  intro m f m' h
  cases hc : m.state.chain with
  | mk entries trap =>
    cases trap with
    | none =>
      rw [words_apply hc] at h
      cases h
    | some t =>
      simp only [words, Action.bind_apply, Action.get_apply, hc, Action.throw_apply] at h
      cases h
      exact Failure.isAnonymous_trap (State.word_of_chain (congrArg Prod.snd hc))

end Terminal

namespace Compiler

open Machine

theorem anonymous_unknown {σ α : Type} (token : String) : Anonymous (unknown token : Action σ α) :=
  anonymous_throw ⟨_, rfl, rfl⟩

theorem anonymous_find : Anonymous find := by
  refine (anonymous_onStack Operand.anonymous_text).bind fun name => .get_bind fun st => ?_
  split
  · exact (succeeds_push _).anonymous
  · exact (succeeds_pure _).anonymous

theorem anonymous_compileNumber : Anonymous number := by
  refine (anonymous_onStack Operand.anonymous_text).bind fun s => ?_
  split
  · exact ((succeeds_push _).bind fun _ => succeeds_push _).anonymous
  · exact ((succeeds_push _).bind fun _ => succeeds_push _).anonymous

theorem anonymous_hidden : Anonymous hidden := by
  refine (anonymous_onStack Operand.anonymous_token).bind fun code => .get_bind fun st => ?_
  split
  · exact (succeeds_modifyFlags _ _).anonymous
  · exact anonymous_raiseAt _ _

theorem anonymous_beginDefinition (name : String) : Anonymous (beginDefinition name) :=
  (anonymous_define name).bind fun _ => (anonymous_comma _).bind fun _ =>
    ((succeeds_modifyFlags _ _).bind fun _ => succeeds_store _ _).anonymous

theorem anonymous_semicolon : Anonymous semicolon :=
  (anonymous_comma _).bind fun _ => anonymous_latest.bind fun _ =>
    ((succeeds_modifyFlags _ _).bind fun _ => succeeds_store _ _).anonymous

theorem anonymous_tick : Anonymous tick := by
  refine (Terminal.anonymous_read _).bind fun name => .get_bind fun m => ?_
  split
  · exact (Machine.succeeds_onState (succeeds_push _)).anonymous
  · exact anonymous_unknown _

theorem anonymous_compileLiteral (c : Cell) : Anonymous (compileLiteral c) :=
  (anonymous_comma _).bind fun _ => anonymous_comma c

/-- A word without a meaning is reported by its text alone; the name is still to come. -/
theorem anonymous_meaning (name : String) : Anonymous (meaning name) := by
  have hrest : Anonymous (do advance; pure none : Action State (Option Word)) :=
    (succeeds_advance.bind fun _ => succeeds_pure _).anonymous
  refine .get_bind fun st => ?_
  split
  · split
    · exact (succeeds_pure _).anonymous
    · exact (anonymous_comma _).bind fun _ => hrest
  · split
    · exact anonymous_unknown _
    · split
      · exact (anonymous_compileLiteral _).bind fun _ => hrest
      · exact (succeeds_push _).anonymous.bind fun _ => hrest

end Compiler

namespace Builtin

open Machine

theorem anonymous_finish {x : Action Machine Unit} (hx : Anonymous x) : Anonymous (perform.finish x) :=
  hx.bind fun _ => (succeeds_pure _).anonymous

theorem anonymous_stateWord {x : Action State Unit} (hx : Anonymous x) : Anonymous (perform.onState x) :=
  anonymous_finish (hx.zoom _ _)

theorem anonymous_stackWord {x : Action (Stack Cell) Unit} (hx : Anonymous x) :
    Anonymous (perform.onStack x) :=
  anonymous_stateWord (anonymous_onStack hx)

/-- No built-in word names itself in the traps that it raises. -/
theorem anonymous_perform (b : Builtin) (w : Word) : Anonymous (b.perform w) := by
  have hoperand {α : Type} {x : Action (Stack Cell) α} {g : α → Action State Unit} (hx : Anonymous x)
      (hg : ∀ a, Anonymous (g a)) : Anonymous (perform.onState (onStack x >>= g)) :=
    anonymous_stateWord ((anonymous_onStack hx).bind hg)
  have hcell {g : Cell → Action Machine Unit} (hg : ∀ c, Anonymous (g c)) :
      Anonymous (perform.finish (Machine.onState (onStack Operand.cell) >>= g)) :=
    anonymous_finish (((anonymous_onStack Operand.anonymous_cell).zoom _ _).bind hg)
  have hread {α : Type} {next : Source → Except Ending α × Source} {g : α → Action State Unit}
      (hg : ∀ a, Anonymous (g a)) :
      Anonymous (perform.finish (onConsole (Terminal.read next) >>= fun a => Machine.onState (g a))) :=
    anonymous_finish ((Terminal.anonymous_read next).bind fun a => (hg a).zoom _ _)
  cases b
  case drop => exact anonymous_stackWord (Operand.anonymous_cell.map _)
  case dup | copySecond | swap | rot => exact anonymous_stackWord (Operand.anonymous_rearrange _)
  case depth => exact anonymous_stackWord (.get_bind fun _ => (Operand.succeeds_push _).anonymous)
  case plus | minus | times | less => exact anonymous_stackWord (Operand.anonymous_binary _)
  case divMod => exact anonymous_stackWord Operand.anonymous_divMod
  case equals => exact anonymous_stackWord Operand.anonymous_equals
  case negate =>
    exact anonymous_stackWord (Operand.anonymous_number.bind fun _ => (Operand.succeeds_push _).anonymous)
  case zeroEquals =>
    exact anonymous_stackWord (Operand.anonymous_cell.bind fun _ => (Operand.succeeds_push _).anonymous)
  case toReturn => exact hoperand Operand.anonymous_number fun _ => (succeeds_modify _).anonymous
  case fromReturn =>
    exact anonymous_stateWord (Storage.anonymous_takeReturn.bind fun _ => (succeeds_push _).anonymous)
  case copyReturn =>
    exact anonymous_stateWord (Storage.anonymous_topReturn.bind fun _ => (succeeds_push _).anonymous)
  case dropReturn => exact anonymous_stateWord (Storage.anonymous_takeReturn.map _)
  case fetch =>
    exact hoperand Operand.anonymous_address fun a =>
      (anonymous_fetch a).bind fun _ => (succeeds_push _).anonymous
  case store => exact anonymous_stateWord Storage.anonymous_store
  case plusStore => exact anonymous_stateWord Storage.anonymous_plusStore
  case move => exact anonymous_stateWord Storage.anonymous_move
  case here | latest | state => exact anonymous_stateWord (succeeds_push _).anonymous
  case lit => exact anonymous_stateWord Control.anonymous_lit
  case branch => exact anonymous_stateWord Control.anonymous_branch
  case zeroBranch => exact anonymous_stateWord Control.anonymous_zeroBranch
  case docol =>
    refine anonymous_stateWord (.get_bind fun _ => Succeeds.anonymous ?_)
    exact (succeeds_modify _).bind fun _ => succeeds_jump _
  case exit =>
    exact anonymous_stateWord (Storage.anonymous_takeReturn.bind fun _ => (succeeds_jump _).anonymous)
  case execute => exact ((anonymous_onStack Operand.anonymous_token).zoom _ _).map _
  case key => exact hread fun _ => (succeeds_push _).anonymous
  case emit =>
    have hcode := Operand.anonymous_cell.bind fun c => anonymous_orRaise c.code? .typeMismatch
    exact anonymous_finish (((anonymous_onStack hcode).zoom _ _).bind fun _ => Terminal.anonymous_write _)
  case dot => exact hcell fun _ => Terminal.anonymous_write _
  case cr => exact anonymous_finish (Terminal.anonymous_write _)
  case words => exact anonymous_finish Terminal.anonymous_words
  case word => exact hread fun _ => (succeeds_push _).anonymous
  case trace => exact hcell fun _ => (succeeds_modify _).anonymous
  case bye => exact anonymous_raise _
  case find => exact anonymous_stateWord Compiler.anonymous_find
  case number => exact anonymous_stateWord Compiler.anonymous_compileNumber
  case comma => exact hoperand Operand.anonymous_cell anonymous_comma
  case create => exact hoperand Operand.anonymous_text fun name => (anonymous_define name).map _
  case immediate =>
    exact anonymous_stateWord (anonymous_latest.bind fun _ => (succeeds_modifyFlags _ _).anonymous)
  case hidden => exact anonymous_stateWord Compiler.anonymous_hidden
  case leftBracket | rightBracket => exact anonymous_stateWord (succeeds_store _ _).anonymous
  case colon => exact hread Compiler.anonymous_beginDefinition
  case semicolon => exact anonymous_stateWord Compiler.anonymous_semicolon
  case tick => exact anonymous_finish Compiler.anonymous_tick
  case literal => exact hoperand Operand.anonymous_cell Compiler.anonymous_compileLiteral
  case interpret =>
    exact (Terminal.anonymous_read _).bind fun name => (Compiler.anonymous_meaning name).zoom _ _

end Builtin

end ForthMachine
