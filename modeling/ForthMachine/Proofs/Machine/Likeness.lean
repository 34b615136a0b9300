import ForthMachine.Proofs.Dictionary.Sameness
import ForthMachine.Proofs.Machine.Accord
import ForthMachine.Snapshot

namespace ForthMachine

open Memory

/-- The same states, apart from the order among entries of different names. -/
def State.Like (s t : State) : Prop := ∃ d, t = { s with dictionary := d } ∧ s.dictionary.Like d

/-- The action does the same in states that are alike. -/
def Blind {α : Type} (x : Action State α) : Prop :=
  ∀ s t, s.Like t → Accord (fun _ => False) State.Like (x s) (x t)

section Composition

variable {α β γ : Type} {x : Action State α}

/-- Actions that do the same in states that are alike, one after another. -/
theorem Blind.bind {g : α → Action State β} (hx : Blind x) (hg : ∀ a, Blind (g a)) : Blind (x >>= g) :=
  fun s t h => (hx s t h).bind fun a => hg a

theorem Blind.map (hx : Blind x) (f : α → β) : Blind (f <$> x) := fun s t h => (hx s t h).map f

theorem blind_pure (a : α) : Blind (pure a : Action State α) := fun _ _ h => .ok a h

theorem blind_throw (e : Failure) : Blind (throw e : Action State α) := fun _ _ h => .error e h

theorem blind_orRaise (a : Option α) (kind : Trap.Kind) : Blind (Action.orRaise a kind) := by
  cases a
  · exact blind_throw _
  · exact blind_pure _

theorem blind_orRaiseAt (a : Option α) (kind : Trap.Kind) (address : Word) :
    Blind (Action.orRaiseAt a kind address) := by
  cases a
  · exact blind_throw _
  · exact blind_pure _

/-- Reading what is the same in both states. -/
theorem blind_get {g : State → Action State β} (hg : ∀ s, Blind (g s))
    (hsame : ∀ s t, s.Like t → g s = g t) : Blind (get >>= g) := by
  intro s t h
  simp only [Action.bind_apply, Action.get_apply]
  rw [← hsame s t h]
  exact hg s s t h

/-- The action does the same in states that are alike, where every code field stands under one name. -/
def Discreet (x : Action State α) : Prop :=
  ∀ s t, s.Like t → s.dictionary.Unambiguous → Accord (fun _ => False) State.Like (x s) (x t)

theorem Discreet.bind {g : α → Action State β} (hx : Discreet x) (hg : ∀ a, Blind (g a)) :
    Discreet (x >>= g) :=
  fun s t h hu => (hx s t h hu).bind fun a => hg a

/-- After an action that leaves the dictionary alone, every code field still stands under one name. -/
theorem Blind.bind_discreet {g : α → Action State β} (hx : Blind x) (hd : Spares State.dictionary x)
    (hg : ∀ a, Discreet (g a)) : Discreet (x >>= g) := by
  intro s t h hu
  have hkept := hd s
  have haccord := hx s t h
  rw [Action.bind_apply, Action.bind_apply]
  generalize x s = r, x t = r' at haccord hkept
  cases haccord with
  | ok a hlike => exact hg a _ _ hlike (hkept ▸ hu)
  | error f hlike => exact .error f hlike
  | excused r he => exact he.elim

end Composition

namespace State

variable {α : Type} {s t : State}

/-- What does not depend on the dictionary is the same. -/
theorem Like.part {γ : Type} {part : State → γ} (h : s.Like t)
    (hp : ∀ st d, part { st with dictionary := d } = part st) : part s = part t := by
  obtain ⟨d, rfl, -⟩ := h
  exact (hp s d).symm

theorem Like.ip (h : s.Like t) : s.ip = t.ip := h.part fun _ _ => rfl

theorem Like.nip (h : s.Like t) : s.nip = t.nip := h.part fun _ _ => rfl

theorem Like.memory (h : s.Like t) : s.memory = t.memory := h.part fun _ _ => rfl

theorem Like.stack (h : s.Like t) : s.stack = t.stack := h.part fun _ _ => rfl

theorem Like.returns (h : s.Like t) : s.returns = t.returns := h.part fun _ _ => rfl

theorem Like.dictionary (h : s.Like t) : s.dictionary.Like t.dictionary := by
  obtain ⟨d, rfl, hd⟩ := h
  exact hd

/-- Comparing states tells whether they are alike. -/
theorem sameAs_iff : s.sameAs t = true ↔ s.Like t := by
  simp only [sameAs, Bool.and_eq_true, decide_eq_true_eq, Dictionary.sameAs_iff, Std.ExtTreeMap.toList_inj]
  constructor
  · rintro ⟨⟨⟨⟨⟨hip, hnip⟩, hstack⟩, hreturns⟩, hd⟩, hmemory⟩
    refine ⟨t.dictionary, ?_, hd⟩
    cases s
    cases t
    cases hip
    cases hnip
    cases hstack
    cases hreturns
    cases hmemory
    rfl
  · intro h
    exact ⟨⟨⟨⟨⟨h.ip, h.nip⟩, h.stack⟩, h.returns⟩, h.dictionary⟩, h.memory⟩

/-- A snapshot is like the state that was kept. -/
theorem like_snapshot (st : State) : st.Like st.snapshot := ⟨_, rfl, st.dictionary.like_normalize⟩

theorem blind_onStack (x : Action (Stack Cell) α) : Blind (onStack x) := by
  rintro s _ ⟨d, rfl, hd⟩
  rw [onStack_apply, onStack_apply]
  cases x s.stack with
  | ok a stack => exact .ok a ⟨d, rfl, hd⟩
  | error f stack => exact .error f ⟨d, rfl, hd⟩

/-- A change to anything but the dictionary. -/
theorem blind_modify {k : State → State} (hd : ∀ st, (k st).dictionary = st.dictionary)
    (hk : ∀ st d, k { st with dictionary := d } = { k st with dictionary := d }) : Blind (modify k) := by
  rintro s _ ⟨d, rfl, h⟩
  refine .ok _ ⟨d, hk s d, ?_⟩
  rw [hd]
  exact h

theorem blind_push (c : Cell) : Blind (push c) := blind_modify (fun _ => rfl) fun _ _ => rfl

theorem blind_store (a : Word) (c : Cell) : Blind (store a c) := blind_modify (fun _ => rfl) fun _ _ => rfl

theorem blind_jump (a : Word) : Blind (jump a) := blind_modify (fun _ => rfl) fun _ _ => rfl

theorem blind_advance : Blind advance := blind_modify (fun _ => rfl) fun _ _ => rfl

theorem blind_fetch (a : Word) : Blind (fetch a) :=
  blind_get (fun _ => blind_orRaiseAt _ _ _) fun _ _ h => by rw [h.memory]

theorem blind_fetchAddress (a : Word) : Blind (fetchAddress a) :=
  (blind_fetch a).bind fun _ => blind_orRaiseAt _ _ _

theorem blind_comma (c : Cell) : Blind (comma c) :=
  (blind_fetchAddress _).bind fun _ => (blind_store _ _).bind fun _ => blind_store _ _

theorem keepsDictionary_onStack (x : Action (Stack Cell) α) : Spares State.dictionary (onStack x) :=
  spares_zoom (fun _ _ => by rfl) x

theorem keepsDictionary_comma (c : Cell) : Spares State.dictionary (comma c) := by
  apply (spares_fetchAddress _).bind
  intro h st
  rfl

/-- Defining a name in both states. -/
theorem Like.define (h : s.Like t) (name : String) :
    (∃ f s' t', State.define name s = .error f s' ∧ State.define name t = .error f t' ∧ s'.Like t') ∨
      ∃ M code, M[hereAddress]? = some (.addr code) ∧
        State.define name s = .ok s.dictionary.size
          { s with memory := M, dictionary := s.dictionary.insert { name, code } } ∧
        State.define name t = .ok t.dictionary.size
          { t with memory := M, dictionary := t.dictionary.insert { name, code } } := by
  have hlink : t.latestLink = s.latestLink := by rw [latestLink, latestLink, h.memory]
  rcases fetchAddress_apply hereAddress s with ⟨c, a, hc, ha, hfetch⟩ | ⟨e, he⟩
  · have hfetch' : fetchAddress hereAddress t = .ok a t := fetchAddress_of_getElem? (h.memory ▸ hc) ha
    cases hl : s.latestLink with
    | ok link =>
      refine .inr ⟨_, a + 3, ?_, define_of_here hc ha hl, ?_⟩
      · rw [Std.ExtTreeMap.getElem?_insert, if_neg (by decide), Std.ExtTreeMap.getElem?_insert_self]
      · rw [define_of_here (h.memory ▸ hc) ha (hlink.trans hl), h.memory]
    | error trap =>
      refine .inl ⟨.trap trap, s, t, ?_, ?_, h⟩
      · simp only [State.define, Action.bind_apply, hfetch, Action.get_apply, hl, Action.throw_apply]
      · simp only [State.define, Action.bind_apply, hfetch', Action.get_apply, hlink, hl,
          Action.throw_apply]
  · have haccord := blind_fetchAddress hereAddress s t h
    rw [he] at haccord
    generalize hr : fetchAddress hereAddress t = r at haccord
    cases haccord with
    | @error _ _ t' hlike =>
      refine .inl ⟨e, s, t', ?_, ?_, hlike⟩
      · rw [State.define, Action.bind_apply, he]
      · rw [State.define, Action.bind_apply, hr]
    | excused _ hfalse => exact hfalse.elim

theorem Like.insert {M : Memory} (h : s.Like t) (e : Entry) :
    State.Like { s with memory := M, dictionary := s.dictionary.insert e }
      { t with memory := M, dictionary := t.dictionary.insert e } := by
  obtain ⟨d, rfl, hd⟩ := h
  exact ⟨_, rfl, hd.insert e⟩

/-- A header leads to entries that are the same, at positions that may differ. -/
theorem Like.headerPosition (h : s.Like t) (hu : s.dictionary.Unambiguous) (link : Word) :
    (∃ trap, s.headerPosition link = .error trap ∧ t.headerPosition link = .error trap) ∨
      ∃ code i j, s.headerPosition link = .ok i ∧ t.headerPosition link = .ok j ∧
        s.dictionary.codePosition? code = some i ∧ t.dictionary.codePosition? code = some j ∧
        s.dictionary.entries[i]? = t.dictionary.entries[j]? := by
  simp only [State.headerPosition, ← h.memory]
  cases s.memory[link]? with
  | none => exact .inl ⟨_, rfl, rfl⟩
  | some c =>
    simp only
    cases c.number? with
    | none => exact .inl ⟨_, rfl, rfl⟩
    | some code =>
      simp only [Option.bind_some]
      rcases h.dictionary.codePosition? hu code with ⟨hi, hj⟩ | ⟨i, j, hi, hj, hentry⟩
      · rw [hi, hj]
        exact .inl ⟨_, rfl, rfl⟩
      · refine .inr ⟨code, i, j, ?_, ?_, hi, hj, hentry⟩
        · rw [hi]
        · rw [hj]

/-- The walk along the headers comes to the same entries, wherever these stand. -/
theorem Like.chainAux (h : s.Like t) (hu : s.dictionary.Unambiguous) (fuel : Nat) (followed : List Word)
    (c : Cell) : (s.chainAux fuel followed c).2 = (t.chainAux fuel followed c).2 ∧
      (s.chainAux fuel followed c).1.filterMap (s.dictionary.entries[·]?) =
        (t.chainAux fuel followed c).1.filterMap (t.dictionary.entries[·]?) := by
  induction fuel generalizing followed c with
  | zero => exact ⟨rfl, rfl⟩
  | succ fuel ih =>
    simp only [State.chainAux, ← h.memory]
    split
    · exact ⟨rfl, rfl⟩
    · cases c.address? with
      | none => exact ⟨rfl, rfl⟩
      | some link =>
        simp only
        split
        · exact ⟨rfl, rfl⟩
        · rcases h.headerPosition hu link with ⟨trap, hs, ht⟩ | ⟨code, i, j, hs, ht, -, -, hentry⟩
          · rw [hs, ht]
            exact ⟨rfl, rfl⟩
          · rw [hs, ht]
            cases s.memory[link + 1]? with
            | none =>
              refine ⟨rfl, ?_⟩
              simp only [List.filterMap_cons, hentry, List.filterMap_nil]
            | some next =>
              obtain ⟨htrap, hmore⟩ := ih (link :: followed) next
              refine ⟨htrap, ?_⟩
              simp only [List.filterMap_cons, hentry, hmore]

/-- The walk along the headers finds the same entries. -/
theorem Like.chain (h : s.Like t) (hu : s.dictionary.Unambiguous) : s.chain = t.chain := by
  simp only [State.chain, ← h.memory]
  cases s.memory[latestAddress]? with
  | none => rfl
  | some c =>
    obtain ⟨htrap, hentries⟩ := h.chainAux hu (s.memory.size + 2) [] c
    simp only [htrap, hentries]

/-- Flags that are changed at these positions leave the states alike. -/
theorem Like.modifyFlags {code : Word} {i j : Nat} (h : s.Like t) (hu : s.dictionary.Unambiguous)
    (hi : s.dictionary.codePosition? code = some i) (hj : t.dictionary.codePosition? code = some j)
    (f : Flags → Flags) :
    Accord (fun _ => False) State.Like (State.modifyFlags i f s) (State.modifyFlags j f t) := by
  have hd := h.dictionary.modifyFlags hu hi hj f
  obtain ⟨d, rfl, -⟩ := h
  exact .ok () ⟨_, rfl, hd⟩

end State

open State

namespace Storage

theorem blind_topReturn : Blind topReturn :=
  blind_get (fun _ => blind_orRaise _ _) fun _ _ h => by rw [h.returns]

theorem blind_takeReturn : Blind takeReturn := by
  apply blind_topReturn.bind
  intro r
  apply Blind.bind
  · exact blind_modify (fun _ => rfl) fun _ _ => rfl
  · exact fun _ => blind_pure r

theorem blind_pushReturn (r : Word) : Blind (pushReturn r) := blind_modify (fun _ => rfl) fun _ _ => rfl

theorem blind_plusStore : Blind plusStore := by
  apply (blind_onStack _).bind
  rintro ⟨a, n⟩
  apply (State.blind_fetch a).bind
  intro c
  split
  · exact State.blind_store _ _
  · exact (blind_orRaise _ _).bind fun _ => State.blind_store _ _

theorem blind_move : Blind move := by
  apply (blind_onStack _).bind
  rintro ⟨target, source, count⟩ s _ ⟨d, rfl, hd⟩
  simp only [Action.bind_apply, Action.get_apply, Action.set_apply]
  cases (s.memory.copyUp target source count.toInt.toNat).2 with
  | none => exact .ok () ⟨d, rfl, hd⟩
  | some a => exact .error _ ⟨d, rfl, hd⟩

end Storage

namespace Control

theorem blind_lit : Blind lit := by
  refine blind_get (fun s => ?_) fun _ _ h => by rw [h.nip]
  exact (blind_fetch s.nip).bind fun c => (blind_push c).bind fun _ => blind_jump _

theorem blind_branch : Blind branch := by
  refine blind_get (fun s => ?_) fun _ _ h => by rw [h.nip]
  exact (blind_fetch s.nip).bind fun c => (blind_orRaise _ _).bind fun _ => blind_jump _

theorem blind_zeroBranch : Blind zeroBranch := by
  apply (blind_onStack _).bind
  intro flag
  split
  · exact blind_branch
  · exact blind_get (fun _ => blind_jump _) fun _ _ h => by rw [h.nip]

theorem blind_docol (w : Word) : Blind (docol w) := by
  refine blind_get (fun s => ?_) fun _ _ h => by rw [h.nip]
  exact (Storage.blind_pushReturn s.nip).bind fun _ => blind_jump _

theorem blind_exit : Blind exit := Storage.blind_takeReturn.bind fun r => blind_jump r

end Control

namespace Compiler

theorem blind_find : Blind find := by
  apply (blind_onStack _).bind
  intro name
  refine blind_get (fun s => ?_) fun _ _ h => by rw [h.dictionary.find?]
  split
  · exact blind_push _
  · exact blind_pure _

theorem blind_number : Blind number := by
  apply (blind_onStack _).bind
  intro s
  split <;> exact (blind_push _).bind fun _ => blind_push _

theorem blind_create : Blind create := by
  apply (blind_onStack _).bind
  intro name s t h
  rw [Action.discard_apply, Action.discard_apply]
  rcases h.define name with ⟨f, s', t', hs, ht, hlike⟩ | ⟨M, code, -, hs, ht⟩
  · rw [hs, ht]
    exact .error f hlike
  · rw [hs, ht]
    exact .ok () (h.insert _)

/-- The new entry is the last one in both states, so both can hide it. -/
theorem blind_beginDefinition (name : String) : Blind (beginDefinition name) := by
  intro s t h
  rw [beginDefinition, Action.bind_apply, Action.bind_apply]
  rcases h.define name with ⟨f, s', t', hs, ht, hlike⟩ | ⟨M, code, hhere, hs, ht⟩
  · rw [hs, ht]
    exact .error f hlike
  · have hcomma (st : State) (D : Dictionary) :
        State.comma (.builtin .docol) { st with memory := M, dictionary := D } = .ok () { st with
          memory := (M.insert code (.builtin .docol)).insert hereAddress (.addr (code + 1))
          dictionary := D } := comma_of_here (d := .addr code) hhere rfl
    rw [hs, ht]
    simp only [Action.bind_apply, hcomma, modifyFlags_apply, Dictionary.modifyFlags_insert, rightBracket,
      store_apply]
    exact .ok () (h.insert _)

theorem blind_compileLiteral (c : Cell) : Blind (compileLiteral c) :=
  (blind_comma _).bind fun _ => blind_comma c

/-- What a word asks for depends on the dictionary through its name alone. -/
theorem blind_meaning (name : String) : Blind (meaning name) := by
  refine blind_get (fun s => ?_) fun s t h => ?_
  · split
    · split
      · exact blind_pure _
      · exact (blind_comma _).bind fun _ => blind_advance.bind fun _ => blind_pure none
    · split
      · exact blind_throw _
      · split
        · exact (blind_compileLiteral _).bind fun _ => blind_advance.bind fun _ => blind_pure none
        · exact (blind_push _).bind fun _ => blind_advance.bind fun _ => blind_pure none
  · rw [h.dictionary.find?, isCompiling, isCompiling, h.memory]

/-- Both states come to the entry of the same code field. -/
theorem discreet_modifyLatest (f : Flags → Flags) : Discreet (do modifyFlags (← latest) f) := by
  rw [latest, bind_assoc]
  apply (blind_fetchAddress _).bind_discreet (spares_fetchAddress _)
  intro link s t h hu
  simp only [Action.bind_apply, Action.get_apply]
  rcases h.headerPosition hu link with ⟨trap, hs, ht⟩ | ⟨code, i, j, hs, ht, hi, hj, -⟩
  · rw [hs, ht]
    exact .error _ h
  · rw [hs, ht]
    exact h.modifyFlags hu hi hj f

theorem discreet_immediate : Discreet immediate := discreet_modifyLatest _

theorem discreet_semicolon : Discreet semicolon := by
  have hgroup : semicolon = (do
      State.comma (.builtin .exit)
      (do modifyFlags (← latest) fun f => { f with hidden := false })
      leftBracket) := by
    rw [semicolon]
    simp only [bind_assoc]
  rw [hgroup]
  apply (blind_comma _).bind_discreet (keepsDictionary_comma _)
  intro _
  exact (discreet_modifyLatest _).bind fun _ => blind_store _ _

/-- HIDDEN finds its entry by a code field. -/
theorem discreet_hidden : Discreet hidden := by
  apply (blind_onStack _).bind_discreet (keepsDictionary_onStack _)
  intro code s t h hu
  simp only [Action.bind_apply, Action.get_apply]
  rcases h.dictionary.codePosition? hu code with ⟨hi, hj⟩ | ⟨i, j, hi, hj, -⟩
  · rw [hi, hj]
    exact .error _ h
  · rw [hi, hj]
    exact h.modifyFlags hu hi hj _

end Compiler

namespace Machine

variable {α : Type} {m m' : Machine}

structure Alike (m m' : Machine) : Prop where
  console : m.console = m'.console
  state : m.state.Like m'.state

/-- What a step reads by itself is the same in machines that are alike. -/
theorem abreast_alike : Abreast Alike where
  ip h := h.state.ip
  nip h := h.state.nip
  memory h := h.state.memory
  stack h := h.state.stack
  returns h := h.state.returns
  note piece h := ⟨congrArg (·.note piece) h.console, h.state⟩
  begun h := by
    obtain ⟨d, hst, hd⟩ := h.state
    refine ⟨h.console, d, ?_, hd⟩
    rw [hst]
    rfl

abbrev Matches (r r' : EStateM.Result Failure Machine α) : Prop := Accord (fun _ => False) Alike r r'

theorem matches_throw (h : Alike m m') (f : Failure) :
    Matches ((throw f : Action Machine α) m) ((throw f : Action Machine α) m') :=
  .error f h

theorem matches_onConsole (h : Alike m m') (x : Action Console α) :
    Matches (onConsole x m) (onConsole x m') := by
  rw [onConsole_apply, onConsole_apply, ← h.console]
  cases x m.console with
  | ok a c => exact .ok a ⟨rfl, h.state⟩
  | error f c => exact .error f ⟨rfl, h.state⟩

theorem matches_of_accord {x : Action State α} (h : Alike m m')
    (hx : Accord (fun _ => False) State.Like (x m.state) (x m'.state)) :
    Matches (onState x m) (onState x m') := by
  rw [onState_apply, onState_apply]
  generalize x m.state = r, x m'.state = r' at hx
  cases hx with
  | ok a hlike => exact .ok a ⟨h.console, hlike⟩
  | error f hlike => exact .error f ⟨h.console, hlike⟩
  | excused r he => exact he.elim

theorem matches_onState {x : Action State α} (h : Alike m m') (hx : Blind x) :
    Matches (onState x m) (onState x m') :=
  matches_of_accord h (hx _ _ h.state)

theorem matches_finish {x : Action Machine Unit} (h : Matches (x m) (x m')) :
    Matches (Builtin.perform.finish x m) (Builtin.perform.finish x m') := by
  apply h.bind
  intro u n n' hn
  exact .ok none hn

theorem matches_stateWord {x : Action State Unit} (h : Alike m m') (hx : Blind x) :
    Matches (Builtin.perform.onState x m) (Builtin.perform.onState x m') :=
  matches_finish (matches_onState h hx)

theorem matches_discreet {x : Action State Unit} (h : Alike m m') (hu : m.state.dictionary.Unambiguous)
    (hx : Discreet x) : Matches (Builtin.perform.onState x m) (Builtin.perform.onState x m') :=
  matches_finish (matches_of_accord h (hx _ _ h.state hu))

/-- WORDS lists the same names. -/
theorem matches_words (h : Alike m m') (hu : m.state.dictionary.Unambiguous) :
    Matches (Terminal.words m) (Terminal.words m') := by
  have hchain := h.state.chain hu
  cases hc : m.state.chain with
  | mk entries trap =>
    rw [hc] at hchain
    cases trap with
    | none =>
      rw [words_apply hc, words_apply hchain.symm, ← h.console]
      exact .ok () ⟨rfl, h.state⟩
    | some t =>
      simp only [Terminal.words, Action.bind_apply, Action.get_apply, hc, ← hchain]
      exact matches_throw h _

theorem matches_trace (h : Alike m m') : Matches (Terminal.trace m) (Terminal.trace m') := by
  apply (matches_onState h (blind_onStack _)).bind
  intro flag n n' hn
  exact .ok () ⟨congrArg (fun c : Console => { c with tracing := !flag.isFalse }) hn.console, hn.state⟩

theorem matches_tick (h : Alike m m') : Matches (Compiler.tick m) (Compiler.tick m') := by
  apply (matches_onConsole h _).bind
  intro name n n' hn
  simp only [Action.bind_apply, Action.get_apply, ← hn.state.dictionary.find?]
  cases n.state.dictionary.find? name with
  | none => exact matches_throw hn _
  | some e => exact matches_onState hn (blind_push _)

/-- Every word does the same on machines that are alike. Those that go through the index of code fields ask
that every code field stands under one name. -/
theorem matches_perform (h : Alike m m') (hu : m.state.dictionary.Unambiguous) (b : Builtin) (w : Word) :
    Matches (b.perform w m) (b.perform w m') := by
  cases b
  case drop | dup | copySecond | swap | rot | depth | plus | minus | times | divMod | negate | equals
    | less | zeroEquals => exact matches_stateWord h (blind_onStack _)
  case here | latest | state => exact matches_stateWord h (blind_push _)
  case toReturn =>
    exact matches_stateWord h ((blind_onStack _).bind fun _ => Storage.blind_pushReturn _)
  case fromReturn => exact matches_stateWord h (Storage.blind_takeReturn.bind fun _ => blind_push _)
  case copyReturn => exact matches_stateWord h (Storage.blind_topReturn.bind fun _ => blind_push _)
  case dropReturn => exact matches_stateWord h (Storage.blind_takeReturn.map _)
  case fetch =>
    exact matches_stateWord h ((blind_onStack _).bind fun _ => (blind_fetch _).bind fun _ => blind_push _)
  case store => exact matches_stateWord h ((blind_onStack _).bind fun _ => blind_store _ _)
  case plusStore => exact matches_stateWord h Storage.blind_plusStore
  case move => exact matches_stateWord h Storage.blind_move
  case lit => exact matches_stateWord h Control.blind_lit
  case branch => exact matches_stateWord h Control.blind_branch
  case zeroBranch => exact matches_stateWord h Control.blind_zeroBranch
  case docol => exact matches_stateWord h (Control.blind_docol w)
  case exit => exact matches_stateWord h Control.blind_exit
  case execute => exact (matches_onState h (blind_onStack _)).map some
  case find => exact matches_stateWord h Compiler.blind_find
  case number => exact matches_stateWord h Compiler.blind_number
  case comma => exact matches_stateWord h ((blind_onStack _).bind fun _ => blind_comma _)
  case create => exact matches_stateWord h Compiler.blind_create
  case leftBracket | rightBracket => exact matches_stateWord h (blind_store _ _)
  case literal =>
    exact matches_stateWord h ((blind_onStack _).bind fun _ => Compiler.blind_compileLiteral _)
  case immediate => exact matches_discreet h hu Compiler.discreet_immediate
  case hidden => exact matches_discreet h hu Compiler.discreet_hidden
  case semicolon => exact matches_discreet h hu Compiler.discreet_semicolon
  case words => exact matches_finish (matches_words h hu)
  case trace => exact matches_finish (matches_trace h)
  case tick => exact matches_finish (matches_tick h)
  case cr => exact matches_finish (matches_onConsole h _)
  case bye => exact matches_throw h _
  case emit | dot =>
    apply matches_finish
    apply (matches_onState h (blind_onStack _)).bind
    intro a n n' hn
    exact matches_onConsole hn _
  case key | word =>
    apply matches_finish
    apply (matches_onConsole h _).bind
    intro a n n' hn
    exact matches_onState hn (blind_push _)
  case colon =>
    apply matches_finish
    apply (matches_onConsole h _).bind
    intro name n n' hn
    exact matches_onState hn (Compiler.blind_beginDefinition name)
  case interpret =>
    apply (matches_onConsole h _).bind
    intro name n n' hn
    exact matches_onState hn (Compiler.blind_meaning name)

/-- Every primitive does the same on machines that are alike. -/
theorem matches_primitive (h : Alike m m') (hu : m.state.dictionary.Unambiguous) (p : Primitive)
    (w : Word) : Matches (p.perform w m) (p.perform w m') := by
  cases p with
  | host name contract => cases contract <;> exact matches_throw h _
  | builtin b =>
    have hperform := matches_perform h hu b w
    simp only [Primitive.perform]
    cases b.contract with
    | withNext => exact hperform
    | ordinary =>
      apply hperform.bind
      intro next n n' hn
      apply (matches_onState hn blind_advance).bind
      intro u n₁ n₁' hn₁
      exact .ok next hn₁

/-- Within a step the dictionary is as it was until the last word. -/
theorem sustains_alike (hu : m.state.dictionary.Unambiguous) : Sustains (fun _ => False) Alike m := by
  intro w p m₁ m₁' hr h
  have hu₁ : m₁.state.dictionary.Unambiguous := by
    obtain ⟨earlier, ht⟩ := hr.trail
    obtain ⟨-, hst⟩ := ht.state
    rw [hst]
    exact hu
  exact matches_primitive h hu₁ p w

/-- Machines that are alike step alike. -/
theorem Alike.step (h : Alike m m') (hu : m.state.dictionary.Unambiguous) :
    m.trap? = m'.trap? ∧ Alike (endState (step m)) (endState (step m')) :=
  alike_of_accord (abreast_alike.step (sustains_alike hu) h) fun _ _ => id

/-- Machines that are alike stay so, and trap at the same steps. -/
theorem Alike.after {n : Nat} (h : Alike m m')
    (hu : ∀ k, k < n → (after k m).state.dictionary.Unambiguous) :
    Alike (after n m) (after n m') ∧ ∀ k, k < n → (after k m).trap? = (after k m').trap? := by
  apply after_alike h
  intro k hk m₁' h₁
  exact h₁.step (hu k hk)

def fromSnapshot (m : Machine) : Machine := { m with state := m.state.snapshot }

/-- Comparing two states comes to comparing pointers, stacks item by item, memory address by address and
entries name by name. Machines with the same devices, in states that compare equal and where every code
field stands under one name, raise the same trap or none in a step, and have the same devices and states
that compare equal after it. A machine that goes on from a snapshot stays like the original in this way for
as long as every code field stands under one name. -/
theorem equal_states_cannot_be_told_apart :
    (∀ s t : State, s.sameAs t = true ↔ s.ip = t.ip ∧ s.nip = t.nip ∧
      (∀ i : Nat, s.stack[i]? = t.stack[i]?) ∧ (∀ i : Nat, s.returns[i]? = t.returns[i]?) ∧
      (∀ a : Word, s.memory[a]? = t.memory[a]?) ∧
      ∀ name, s.dictionary.named name = t.dictionary.named name) ∧
    (∀ m m' : Machine, m.console = m'.console → m.state.sameAs m'.state = true →
      m.state.dictionary.Unambiguous →
      m.trap? = m'.trap? ∧ (endState (step m)).console = (endState (step m')).console ∧
        (endState (step m)).state.sameAs (endState (step m')).state = true) ∧
    ∀ (m : Machine) (n : Nat), (∀ k, k < n → (after k m).state.dictionary.Unambiguous) →
      (∀ k, k < n → (after k m).trap? = (after k m.fromSnapshot).trap?) ∧
        (after n m).console = (after n m.fromSnapshot).console ∧
        (after n m).state.sameAs (after n m.fromSnapshot).state = true := by
  refine ⟨fun s t => ?_, fun m m' hc hs hu => ?_, fun m n hu => ?_⟩
  · rw [State.sameAs_iff]
    constructor
    · intro h
      refine ⟨h.ip, h.nip, fun i => ?_, fun i => ?_, fun a => ?_, h.dictionary⟩
      · rw [h.stack]
      · rw [h.returns]
      · rw [h.memory]
    · rintro ⟨hip, hnip, hstack, hreturns, hmemory, hd⟩
      have hs := List.ext_getElem? hstack
      have hr := List.ext_getElem? hreturns
      have hm := Std.ExtTreeMap.ext_getElem? hmemory
      rw [← State.sameAs_iff]
      simp [sameAs, hip, hnip, hs, hr, hm, Dictionary.sameAs_iff.mpr hd]
  · have halike : Alike m m' := ⟨hc, State.sameAs_iff.mp hs⟩
    obtain ⟨htrap, hnext⟩ := halike.step hu
    exact ⟨htrap, hnext.console, State.sameAs_iff.mpr hnext.state⟩
  · have halike : Alike m m.fromSnapshot := ⟨rfl, like_snapshot m.state⟩
    obtain ⟨hafter, htraps⟩ := halike.after hu
    exact ⟨htraps, hafter.console, State.sameAs_iff.mpr hafter.state⟩

end Machine

namespace ShadowedName

open Machine

/-- A machine about to turn the immediate flag of its newest entry over. Between the two entries of one
name an entry of another name has come in. -/
def machine : Machine where
  state := {
    ip := 30
    nip := 31
    memory := Memory.load (Memory.load ∅ 1 [.addr 13]) 13 [.ref 16] |>.insert 30 (.builtin .immediate)
    dictionary := .ofList [
      { name := "A", code := 8 }, { name := "B", code := 12 }, { name := "A", code := 16 }] }

theorem unambiguous_machine : ∀ k, k < 2 → (after k machine).state.dictionary.Unambiguous := by
  decide +kernel

end ShadowedName

namespace Machine

open ShadowedName

/-- A snapshot in which the entries stand in another order goes on like the original. -/
theorem snapshot_goes_on_like_original :
    machine.fromSnapshot.state.dictionary.entries ≠ machine.state.dictionary.entries ∧
      machine.state.sameAs machine.fromSnapshot.state = true ∧
      (endState (step machine)).state.sameAs (endState (step machine.fromSnapshot)).state = true ∧
      (∀ k, k < 2 → (after k machine).trap? = (after k machine.fromSnapshot).trap?) ∧
      (after 2 machine).state.sameAs (after 2 machine.fromSnapshot).state = true := by
  obtain ⟨-, hstep, hrun⟩ := equal_states_cannot_be_told_apart
  have hsame : machine.state.sameAs machine.fromSnapshot.state = true := by decide +kernel
  obtain ⟨-, -, hnext⟩ := hstep machine machine.fromSnapshot rfl hsame (unambiguous_machine 0 (by decide))
  obtain ⟨htraps, -, hafter⟩ := hrun machine 2 unambiguous_machine
  exact ⟨by decide +kernel, hsame, hnext, htraps, hafter⟩

end Machine

end ForthMachine
