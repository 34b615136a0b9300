import ForthMachine.Proofs.Interpreter.Token
import ForthMachine.Proofs.Memory.Entry

namespace ForthMachine

open Memory State Machine

/-- Where a definition is built: memory and dictionary before it, the outer interpreter and its return
stack, the address of the header, the link in the header, and the name. -/
structure Site where
  memory : Memory
  dictionary : Dictionary
  quit : Word
  returns : Stack Word
  start : Word
  link : Cell
  name : String

namespace Site

def entry (s : Site) (flags : Flags) : Entry := { name := s.name, code := s.start.plus 3, flags }

/-- Memory with some cells of the code in place. The mode is what the variable STATE holds. -/
def memoryWith (s : Site) (mode : Word) (cells : List Cell) : Memory :=
  enter (s.memory.insert stateAddress (.int mode)) s.start s.link s.name cells

def built (s : Site) (flags : Flags) (mode : Word) (cells : List Cell) (S : Stack Cell) : State :=
  running (s.memoryWith mode cells) (s.dictionary.insert (s.entry flags)) s.quit s.returns S

def draft (s : Site) (cells : List Cell) (S : Stack Cell) : State :=
  s.built { hidden := true } 1 cells S

/-- There is room for `n` cells of the definition, header included, and the outer interpreter does not
lie there. The code fields of the built-in words are given. -/
structure Ready (s : Site) (fields : Builtin → Word) (n : Nat) : Prop where
  free : Free s.start n
  loop : s.memory.Keeps s.start n s.quit [.ref (fields .interpret), .ref (fields .branch), .int (-2)]
  interpret : Fixed s.memory s.start n (fields .interpret) (.builtin .interpret)
  branch : Fixed s.memory s.start n (fields .branch) (.builtin .branch)

structure Equipped (s : Site) (fields : Builtin → Word) (n : Nat) : Prop extends s.Ready fields n where
  builtin : ∀ b, Fixed s.memory s.start n (fields b) (.builtin b)

section Views

variable {s : Site} {fields : Builtin → Word} {n : Nat} {flags : Flags} {mode : Word}
  {cells cs : List Cell} {S : Stack Cell} {a : Word} {c : Cell}

/-- What a definition does not touch. -/
theorem memoryWith_outside (hh : a ≠ hereAddress) (hl : a ≠ latestAddress) (hs : a ≠ stateAddress)
    (ho : Outside s.start (3 + cells.length) a) : (s.memoryWith mode cells)[a]? = s.memory[a]? := by
  rw [memoryWith, enter_outside hh hl ho, getElem?_insert_ne _ _ hs.symm]

/-- The draft does not reach a cell outside of it. -/
theorem fixed_memoryWith (h : Fixed s.memory s.start n a c) (hn : 3 + cells.length ≤ n) :
    (s.memoryWith mode cells)[a]? = some c :=
  (h.insert_state _).enter hn

theorem keeps_memoryWith (h : s.memory.Keeps s.start n a cs) (hn : 3 + cells.length ≤ n) :
    (s.memoryWith mode cells).Holds a cs :=
  (h.insert_state _).enter hn

theorem Equipped.field (hr : s.Equipped fields n) (hn : 3 + cells.length ≤ n) (b : Builtin) :
    (s.memoryWith mode cells)[fields b]? = some (.builtin b) :=
  fixed_memoryWith (hr.builtin b) hn

/-- The outer interpreter is in place while the definition is built. -/
theorem Ready.loop_memoryWith (hr : s.Ready fields n) (hn : 3 + cells.length ≤ n) :
    Loop s.quit (s.memoryWith mode cells) :=
  ⟨_, _, keeps_memoryWith hr.loop hn, fixed_memoryWith hr.interpret hn, fixed_memoryWith hr.branch hn⟩

theorem Ready.loop_memory (hr : s.Ready fields n) : Loop s.quit s.memory :=
  ⟨_, _, hr.loop.holds, hr.interpret.cell, hr.branch.cell⟩

theorem state_memoryWith (hf : Free s.start (3 + cells.length)) :
    (s.memoryWith mode cells)[stateAddress]? = some (.int mode) := by
  rw [memoryWith, enter_state hf, getElem?_insert_eq]

theorem isCompiling_built (hf : Free s.start (3 + cells.length)) :
    (s.built flags mode cells S).isCompiling = !decide (mode = 0) := by
  have hstate : (s.built flags mode cells S).memory[stateAddress]? = some (.int mode) :=
    state_memoryWith hf
  simp [isCompiling, hstate, Cell.isFalse, Cell.number?]

/-- A hidden name does not stand in the way of an older one. -/
theorem find?_hidden (h : flags.hidden = true) (w : String) :
    (s.built flags mode cells S).dictionary.find? w = s.dictionary.find? w := by
  change (s.dictionary.insert (s.entry flags)).find? w = _
  rw [Dictionary.find?_insert, if_neg]
  simp [Dictionary.isNamed, entry, h]

/-- When the semicolon has been read, the name stands for the new definition. -/
theorem find?_visible (h : flags.hidden = false) :
    (s.built flags mode cells S).dictionary.find? s.name = some (s.entry flags) := by
  change (s.dictionary.insert (s.entry flags)).find? s.name = _
  rw [Dictionary.find?_insert, if_pos]
  simp [Dictionary.isNamed, entry, h]

/-- A cell is compiled behind those that are there. -/
theorem comma_built (hf : Free s.start (3 + cells.length + 1)) (c : Cell) :
    comma c (s.built flags mode cells S) = .ok () (s.built flags mode (cells ++ [c]) S) :=
  comma_apply c rfl hf

/-- The newest entry is that of the draft. -/
theorem latest_built (hf : Free s.start (3 + cells.length)) :
    latest (s.built flags mode cells S) = .ok s.dictionary.size (s.built flags mode cells S) :=
  latest_apply rfl rfl rfl hf

theorem latestLink_built (hf : Free s.start (3 + cells.length)) :
    (s.built flags mode cells S).latestLink = .ok (.addr s.start) := by
  have hlatest : (s.built flags mode cells S).memory[latestAddress]? = some (.addr s.start) :=
    enter_latest hf
  rw [latestLink, hlatest]
  rfl

theorem modifyFlags_built (f : Flags → Flags) :
    State.modifyFlags s.dictionary.size f (s.built flags mode cells S) =
      .ok () (s.built (f flags) mode cells S) := by
  rw [modifyFlags_apply]
  simp only [built, running, Dictionary.modifyFlags_insert]
  rfl

theorem store_state_built (hf : Free s.start (3 + cells.length)) (mode' : Word) :
    store stateAddress (.int mode') (s.built flags mode cells S) =
      .ok () (s.built flags mode' cells S) := by
  rw [store_apply]
  simp only [built, running, memoryWith, enter_insert_state hf, insert_insert]

/-- A reset leaves the cells of an unfinished definition where they are, and its name hidden. -/
theorem reset_draft (hf : Free s.start (3 + cells.length)) :
    (s.draft cells S).reset s.quit =
      ({ s with returns := [] } : Site).built { hidden := true } 0 cells [] := by
  have hmode : (s.memoryWith 1 cells).insert stateAddress (.int 0) = s.memoryWith 0 cells := by
    rw [memoryWith, enter_insert_state hf, insert_insert]
    rfl
  simp only [State.reset, draft, built, running, hmode]
  rfl

theorem compileLiteral_built (hf : Free s.start (3 + cells.length + 2)) (c : Cell) :
    Compiler.compileLiteral c (s.built flags mode cells S) =
      .ok () (s.built flags mode (cells ++ [.builtin .lit, c]) S) := by
  have hlit : comma (.builtin .lit) (s.built flags mode cells S) =
      .ok () (s.built flags mode (cells ++ [.builtin .lit]) S) :=
    comma_built (hf.mono (by omega)) _
  have hcell : comma c (s.built flags mode (cells ++ [.builtin .lit]) S) =
      .ok () (s.built flags mode (cells ++ [.builtin .lit] ++ [c]) S) :=
    comma_built (by simpa [Nat.add_assoc] using hf) c
  rw [List.append_assoc] at hcell
  simp only [Compiler.compileLiteral, Action.bind_apply, hlit, hcell]
  rfl

end Views

def outset (s : Site) (S : Stack Cell) : State :=
  running s.memory s.dictionary s.quit s.returns S

/-- Words are interpreted, the header comes to lie at the next free address, and its link leads to the
newest header. -/
structure Opens (s : Site) : Prop where
  here : ∃ d, s.memory[hereAddress]? = some d ∧ d.address? = some s.start
  link : (s.outset []).latestLink = .ok s.link
  mode : (s.outset []).isCompiling = false

section Tokens

variable {s : Site} {fields : Builtin → Word} {n : Nat} {cells : List Cell} {S : Stack Cell}
  {e : Entry} {w : String} {ws : List String} {output : Option Sink}

/-- The colon leaves a draft with DOCOL as its only cell of code. -/
theorem beginDefinition_apply (ho : s.Opens) (hf : Free s.start 4) :
    Compiler.beginDefinition s.name (s.outset S) = .ok () (s.draft [.builtin .docol] S) := by
  obtain ⟨d, hd, hh⟩ := ho.here
  have hdefine : define s.name (s.outset S) = .ok s.dictionary.size
      (running (s.memory.enter s.start s.link s.name []) (s.dictionary.insert (s.entry {})) s.quit
        s.returns S) := by
    have hlink : (s.outset S).latestLink = .ok s.link := ho.link
    rw [define_apply hd hh hlink (hf.mono (by decide))]
    rfl
  have hdocol : comma (.builtin .docol) (running (s.memory.enter s.start s.link s.name [])
      (s.dictionary.insert (s.entry {})) s.quit s.returns S) =
      .ok () (running (s.memory.enter s.start s.link s.name ([] ++ [.builtin .docol]))
        (s.dictionary.insert (s.entry {})) s.quit s.returns S) :=
    comma_apply _ rfl hf
  have hmode : (s.memory.enter s.start s.link s.name [.builtin .docol]).insert stateAddress
      (.int 1) = s.memoryWith 1 [.builtin .docol] :=
    enter_insert_state hf _
  simp only [Compiler.beginDefinition, Action.bind_apply, hdefine, hdocol, modifyFlags_apply,
    Compiler.rightBracket, store_apply]
  simp only [running, List.nil_append, Dictionary.modifyFlags_insert, hmode]
  rfl

/-- A colon and a name start a definition. -/
theorem leads_colon (hr : s.Ready fields n) (hn : 4 ≤ n) (ho : s.Opens)
    (hl : Loop s.quit s.memory) (hf : s.dictionary.find? ":" = some e)
    (he : s.memory[e.code]? = some (.builtin .colon)) :
    Leads (Awaits (s.outset S) (":" :: s.name :: ws) output)
      (Awaits (s.draft [.builtin .docol] S) ws output) := by
  refine leads_reading_handOver (b := .colon) hl (hr.loop_memoryWith (by simpa using hn))
    (meaning_of_find? hf (.inr ho.mode)) he rfl rfl ?_
  intro m hm
  rw [onState_apply, hm]
  have hbegin := beginDefinition_apply (S := S) ho (hr.free.mono hn)
  rw [outset] at hbegin
  rw [hbegin]
  rfl

/-- A visible name that is not immediate is compiled as a reference. -/
theorem leads_compiled_word (hr : s.Ready fields n) (hn : 3 + cells.length + 1 ≤ n)
    (hf : s.dictionary.find? w = some e) (hi : e.flags.immediate = false) :
    Leads (Awaits (s.draft cells S) (w :: ws) output)
      (Awaits (s.draft (cells ++ [.ref e.code]) S) ws output) := by
  have hfind : (s.draft cells S).dictionary.find? w = some e := by
    rw [draft, find?_hidden rfl, hf]
  have hmode : (s.draft cells S).isCompiling = true :=
    isCompiling_built (hr.free.mono (by omega))
  have hcomma : comma (.ref e.code) (s.draft cells S) =
      .ok () (s.draft (cells ++ [.ref e.code]) S) :=
    comma_built (hr.free.mono hn) _
  apply leads_meaning (hr.loop_memoryWith (by omega)) (hr.loop_memoryWith (by simp; omega))
  change Compiler.meaning w (s.draft cells S) = _
  simp only [Compiler.meaning, Action.bind_apply, Action.get_apply, hfind, hi, hmode, Bool.not_true,
    Bool.or_self, Bool.false_eq_true, ↓reduceIte, hcomma, advance_apply, Action.pure_apply]
  rfl

/-- A number that is no visible name is compiled as a literal. -/
theorem leads_compiled_literal {k : Word} (hr : s.Ready fields n) (hn : 3 + cells.length + 2 ≤ n)
    (hf : s.dictionary.find? w = none) (hk : Numeral.decimal? w.toList = some k) :
    Leads (Awaits (s.draft cells S) (w :: ws) output)
      (Awaits (s.draft (cells ++ [.builtin .lit, .int k]) S) ws output) := by
  have hfind : (s.draft cells S).dictionary.find? w = none := by
    rw [draft, find?_hidden rfl, hf]
  have hmode : (s.draft cells S).isCompiling = true :=
    isCompiling_built (hr.free.mono (by omega))
  have hlit : Compiler.compileLiteral (.int k) (s.draft cells S) =
      .ok () (s.draft (cells ++ [.builtin .lit, .int k]) S) :=
    compileLiteral_built (hr.free.mono hn) _
  apply leads_meaning (hr.loop_memoryWith (by omega)) (hr.loop_memoryWith (by simp; omega))
  change Compiler.meaning w (s.draft cells S) = _
  simp only [Compiler.meaning, Action.bind_apply, Action.get_apply, hfind, hk, hmode, ↓reduceIte,
    hlit, advance_apply, Action.pure_apply]
  rfl

/-- A semicolon ends the definition and makes its name visible. -/
theorem leads_semicolon (hr : s.Ready fields n) (hn : 3 + cells.length + 1 ≤ n)
    (hf : s.dictionary.find? ";" = some e) (hi : e.flags.immediate = true)
    (he : Fixed s.memory s.start n e.code (.builtin .semicolon)) :
    Leads (Awaits (s.draft cells S) (";" :: ws) output)
      (Awaits (s.built {} 0 (cells ++ [.builtin .exit]) S) ws output) := by
  have hfree : Free s.start (3 + (cells ++ [.builtin .exit] : List Cell).length) :=
    hr.free.mono (by simp; omega)
  -- the semicolon runs although words are compiled, because it is immediate
  have hmeaning : Compiler.meaning ";" (s.draft cells S) = .ok (some e.code) (s.draft cells S) :=
    meaning_of_find? (by rw [draft, find?_hidden rfl, hf]) (.inl hi)
  refine leads_ordinary_handOver (b := .semicolon) (hr.loop_memoryWith (by omega))
    (hr.loop_memoryWith (by simp; omega)) hmeaning (fixed_memoryWith he (by omega)) rfl rfl ?_
  change Compiler.semicolon (s.draft cells S) = _
  simp only [Compiler.semicolon, draft, Action.bind_apply, comma_built (hr.free.mono hn),
    latest_built hfree, modifyFlags_built, Compiler.leftBracket, store_state_built hfree]
  rfl

end Tokens

end Site

end ForthMachine
