import ForthMachine.Proofs.Interpreter.Draft
import ForthMachine.Proofs.Structured.Operation

namespace ForthMachine

open Memory State Machine

inductive Control where
  | ifWord | thenWord | elseWord | beginWord | untilWord | againWord
  deriving DecidableEq, Repr

namespace Control

def name : Control → String
  | ifWord => "IF"
  | thenWord => "THEN"
  | elseWord => "ELSE"
  | beginWord => "BEGIN"
  | untilWord => "UNTIL"
  | againWord => "AGAIN"

variable (fields : Builtin → Word)

def openBranch (b : Builtin) : List Cell :=
  [.builtin .lit, .ref (fields b), .ref (fields .comma), .ref (fields .here), .ref (fields .fetch),
    .builtin .lit, .int 0, .ref (fields .comma)]

def patch : List Cell :=
  [.ref (fields .dup), .ref (fields .here), .ref (fields .fetch), .ref (fields .swap),
    .ref (fields .minus), .ref (fields .swap), .ref (fields .store)]

def closeBranch (b : Builtin) : List Cell :=
  [.builtin .lit, .ref (fields b), .ref (fields .comma), .ref (fields .here), .ref (fields .fetch),
    .ref (fields .minus), .ref (fields .comma)]

def code : Control → List Cell
  | ifWord => openBranch fields .zeroBranch
  | thenWord => patch fields
  | elseWord => openBranch fields .branch ++ (.ref (fields .swap) :: patch fields)
  | beginWord => [.ref (fields .here), .ref (fields .fetch)]
  | untilWord => closeBranch fields .zeroBranch
  | againWord => closeBranch fields .branch

end Control

namespace Site

def compiling (s : Site) (cells : List Cell) (a : Word) (R : Stack Word) (S : Stack Cell) : State :=
  running (s.memoryWith 1 cells) (s.dictionary.insert (s.entry { hidden := true })) a R S

section Cells

variable {s : Site} {fields : Builtin → Word} {n i j : Nat} {cells : List Cell} {a : Word}
  {R : Stack Word} {S : Stack Cell} {c : Cell} {input : Option Source} {output : Option Sink}

theorem leads_lit (hn : 3 + cells.length ≤ n)
    (hl : Fixed s.memory s.start n (a.plus i) (.builtin .lit))
    (hc : Fixed s.memory s.start n (a.plus (i + 1)) c) :
    Leads (Shows (s.compiling cells (a.plus i) R S) input output)
      (Shows (s.compiling cells (a.plus (i + 2)) R (c :: S)) input output) := by
  have hcells : (s.memoryWith 1 cells).Holds (a.plus i) [.builtin .lit, c] := by
    rw [holds_cons, holds_singleton, Word.plus_plus]
    exact ⟨fixed_memoryWith hl hn, fixed_memoryWith hc hn⟩
  rw [← Word.plus_plus]
  exact Machine.leads_lit hcells

theorem leads_comma (hr : s.Equipped fields n) (hn : 3 + cells.length + 1 ≤ n)
    (hc : Fixed s.memory s.start n (a.plus i) (.ref (fields .comma))) :
    Leads (Shows (s.compiling cells (a.plus i) R (c :: S)) input output)
      (Shows (s.compiling (cells ++ [c]) (a.plus (i + 1)) R S) input output) := by
  rw [← Word.plus_plus]
  refine leads_ordinary (b := .comma) (x := Compiler.comma) (fixed_memoryWith hc (by omega))
    (hr.field (by omega) _) rfl rfl ?_
  rw [Compiler.comma, Action.bind_apply]
  exact comma_apply c rfl (hr.free.mono hn)

/-- The words HERE and @ give the next free address. -/
theorem leads_here (hr : s.Equipped fields n) (hn : 3 + cells.length ≤ n)
    (hh : Fixed s.memory s.start n (a.plus i) (.ref (fields .here)))
    (hf : Fixed s.memory s.start n (a.plus (i + 1)) (.ref (fields .fetch))) :
    Leads (Shows (s.compiling cells (a.plus i) R S) input output)
      (Shows (s.compiling cells (a.plus (i + 2)) R (.addr (s.start.plus (3 + cells.length)) :: S))
        input output) := by
  have hpush : Leads (Shows (s.compiling cells (a.plus i) R S) input output)
      (Shows (s.compiling cells ((a.plus i).plus 1) R (.addr hereAddress :: S)) input output) :=
    leads_ordinary (b := .here) (fixed_memoryWith hh hn) (hr.field hn _) rfl rfl rfl
  have hfetch : Leads (Shows (s.compiling cells (a.plus (i + 1)) R (.addr hereAddress :: S))
      input output) (Shows (s.compiling cells ((a.plus (i + 1)).plus 1) R
        (.addr (s.start.plus (3 + cells.length)) :: S)) input output) := by
    refine leads_ordinary (b := .fetch) (x := Storage.fetch) (fixed_memoryWith hf hn)
      (hr.field hn _) rfl rfl ?_
    have hcell : State.fetch hereAddress (s.compiling cells (a.plus (i + 1)) R S) =
        .ok (.addr (s.start.plus (3 + cells.length))) (s.compiling cells (a.plus (i + 1)) R S) :=
      fetch_of_getElem? enter_here
    rw [Storage.fetch, Action.bind_apply]
    change (State.fetch hereAddress >>= push) (s.compiling cells (a.plus (i + 1)) R S) = _
    rw [Action.bind_apply, hcell]
    rfl
  rw [Word.plus_plus] at hpush hfetch
  exact hpush.trans hfetch

/-- The word ! changes a cell of the definition. -/
theorem leads_store (hr : s.Equipped fields n) (hn : 3 + cells.length ≤ n) (hj : j < cells.length)
    (hc : Fixed s.memory s.start n (a.plus i) (.ref (fields .store))) :
    Leads (Shows (s.compiling cells (a.plus i) R (.addr (s.start.plus (3 + j)) :: c :: S))
        input output)
      (Shows (s.compiling (cells.set j c) (a.plus (i + 1)) R S) input output) := by
  rw [← Word.plus_plus a]
  refine leads_ordinary (b := .store) (x := Storage.store) (fixed_memoryWith hc hn)
    (hr.field hn _) rfl rfl ?_
  simp only [Storage.store, running, Action.bind_apply, onStack_apply,
    Operand.need_two_cons, Operand.address_cons, Cell.address?, Operand.cell_cons,
    Action.pure_apply, store_apply, memoryWith, enter_set (hr.free.mono hn) hj]

theorem leads_operation (op : Operation) {x : Action (Stack Cell) Unit} {S' : Stack Cell}
    (hr : s.Equipped fields n) (hn : 3 + cells.length ≤ n)
    (hc : Fixed s.memory s.start n (a.plus i) (.ref (fields op.builtin)))
    (hx : op.stackAction? = some x) (hs : op.change S = .leave S') :
    Leads (Shows (s.compiling cells (a.plus i) R S) input output)
      (Shows (s.compiling cells (a.plus (i + 1)) R S') input output) := by
  rw [← Word.plus_plus]
  exact Operation.leads_of_change hx hs (fixed_memoryWith hc hn) (hr.field hn _)

/-- A forward branch is laid down with an empty offset, whose address goes onto the stack. -/
theorem leads_openBranch {b : Builtin} (hr : s.Equipped fields n) (hn : 3 + cells.length + 2 ≤ n)
    (hk : s.memory.Keeps s.start n a (Control.openBranch fields b)) :
    Leads (Shows (s.compiling cells a R S) input output)
      (Shows (s.compiling (cells ++ [.ref (fields b), .int 0]) (a.plus 8) R
        (.addr (s.start.plus (3 + (cells.length + 1))) :: S)) input output) := by
  have hlen : (cells ++ [Cell.ref (fields b)]).length = cells.length + 1 := by simp
  suffices h : Leads (Shows (s.compiling cells (a.plus 0) R S) input output)
      (Shows (s.compiling (cells ++ [.ref (fields b)] ++ [.int 0]) (a.plus 8) R
        (.addr (s.start.plus (3 + (cells ++ [Cell.ref (fields b)]).length)) :: S)) input output) by
    rwa [Word.plus_zero, hlen, List.append_assoc] at h
  apply (leads_lit (by omega) (hk 0 _ rfl) (hk 1 _ rfl)).trans
  apply (leads_comma hr (by omega) (hk 2 _ rfl)).trans
  apply (leads_here hr (by omega) (hk 3 _ rfl) (hk 4 _ rfl)).trans
  apply (leads_lit (by omega) (hk 5 _ rfl) (hk 6 _ rfl)).trans
  exact leads_comma hr (by omega) (hk 7 _ rfl)

/-- The open end is patched: the offset leads from its own cell to the next free one. -/
theorem leads_patch (hr : s.Equipped fields n) (hn : 3 + cells.length ≤ n) (hj : j < cells.length)
    (hk : s.memory.Keeps s.start n a (Control.patch fields)) :
    Leads (Shows (s.compiling cells a R (.addr (s.start.plus (3 + j)) :: S)) input output)
      (Shows (s.compiling (cells.set j (.int (Int64.ofNat (cells.length - j)))) (a.plus 7) R S)
        input output) := by
  have hoffset : s.start.plus (3 + cells.length) - s.start.plus (3 + j) =
      Int64.ofNat (cells.length - j) := by
    rw [← Word.plus_sub_plus s.start (3 + j)]
    congr 2
    omega
  suffices h : Leads (Shows (s.compiling cells (a.plus 0) R (.addr (s.start.plus (3 + j)) :: S)) input
      output) (Shows (s.compiling (cells.set j (.int (s.start.plus (3 + cells.length) -
        s.start.plus (3 + j)))) (a.plus 7) R S) input output) by
    rwa [Word.plus_zero, hoffset] at h
  apply (leads_operation .dup hr hn (hk 0 _ rfl) rfl rfl).trans
  apply (leads_here hr hn (hk 1 _ rfl) (hk 2 _ rfl)).trans
  apply (leads_operation .swap hr hn (hk 3 _ rfl) rfl rfl).trans
  apply (leads_operation .minus hr hn (hk 4 _ rfl) rfl rfl).trans
  apply (leads_operation .swap hr hn (hk 5 _ rfl) rfl rfl).trans
  exact leads_store hr hn hj (hk 6 _ rfl)

/-- A branch is laid down whose offset leads from its own cell back to a cell of the definition. -/
theorem leads_closeBranch {b : Builtin} (hr : s.Equipped fields n) (hn : 3 + cells.length + 2 ≤ n)
    (hj : j ≤ cells.length) (hk : s.memory.Keeps s.start n a (Control.closeBranch fields b)) :
    Leads (Shows (s.compiling cells a R (.addr (s.start.plus (3 + j)) :: S)) input output)
      (Shows (s.compiling (cells ++ [.ref (fields b),
        .int (-Int64.ofNat (cells.length - j + 1))]) (a.plus 7) R S) input output) := by
  have hlen : (cells ++ [Cell.ref (fields b)]).length = cells.length + 1 := by simp
  -- the reference has been laid down when the distance is taken, hence one cell more
  have hoffset : s.start.plus (3 + j) - s.start.plus (3 + (cells.length + 1)) =
      -Int64.ofNat (cells.length - j + 1) := by
    rw [← Word.plus_sub_plus_add s.start (3 + j)]
    congr 2
    omega
  suffices h : Leads (Shows (s.compiling cells (a.plus 0) R (.addr (s.start.plus (3 + j)) :: S)) input
      output) (Shows (s.compiling (cells ++ [.ref (fields b)] ++ [.int (s.start.plus (3 + j) -
        s.start.plus (3 + (cells ++ [Cell.ref (fields b)]).length))]) (a.plus 7) R S) input output) by
    rwa [Word.plus_zero, hlen, hoffset, List.append_assoc] at h
  apply (leads_lit (by omega) (hk 0 _ rfl) (hk 1 _ rfl)).trans
  apply (leads_comma hr (by omega) (hk 2 _ rfl)).trans
  apply (leads_here hr (by omega) (hk 3 _ rfl) (hk 4 _ rfl)).trans
  apply (leads_operation .minus hr (by omega) (hk 5 _ rfl) rfl rfl).trans
  exact leads_comma hr (by omega) (hk 6 _ rfl)

end Cells

/-- The control words are the visible, immediate definitions that they should be, and neither they nor
the built-in words lie where the new definition is built. -/
structure HasControls (s : Site) (fields : Builtin → Word) (n : Nat) : Prop where
  equipped : s.Equipped fields n
  word : ∀ k : Control, ∃ e, s.dictionary.find? k.name = some e ∧ e.flags.immediate = true ∧
    s.memory.Keeps s.start n e.code (.builtin .docol :: (k.code fields ++ [.builtin .exit]))

section Words

variable {s : Site} {fields : Builtin → Word} {n j : Nat} {cells cells' : List Cell}
  {S S' : Stack Cell} {ws : List String} {output : Option Sink}

/-- A control word in the source has the effect of its code. -/
theorem leads_control (hc : s.HasControls fields n) (k : Control)
    (hn : 3 + cells.length ≤ n) (hn' : 3 + cells'.length ≤ n)
    (hrun : ∀ a R input, s.memory.Keeps s.start n a (k.code fields) →
      Leads (Shows (s.compiling cells a R S) input output)
        (Shows (s.compiling cells' (a.plus (k.code fields).length) R S') input output)) :
    Leads (Awaits (s.draft cells S) (k.name :: ws) output) (Awaits (s.draft cells' S') ws output) := by
  obtain ⟨e, hf, hi, hk⟩ := hc.word k
  obtain ⟨hdocol, hrest⟩ := keeps_cons.mp hk
  obtain ⟨hcode, hexit⟩ := keeps_append.mp hrest
  have hmeaning : Compiler.meaning k.name (s.draft cells S) = .ok (some e.code) (s.draft cells S) :=
    meaning_of_find? (by rw [draft, find?_hidden rfl, hf]) (.inl hi)
  -- in through DOCOL, along the code, and back through EXIT
  apply (leads_entered (hc.equipped.loop_memoryWith hn) hmeaning (fixed_memoryWith hdocol hn)).trans
  refine (leads_awaits fun input => hrun _ _ input hcode).trans ?_
  exact leads_returned (hc.equipped.loop_memoryWith hn') (fixed_memoryWith (keeps_singleton.mp hexit) hn')

/-- IF lays down a branch on a false flag and leaves the address of its offset. -/
theorem leads_if (hc : s.HasControls fields n)
    (hn : 3 + cells.length + 2 ≤ n) :
    Leads (Awaits (s.draft cells S) ("IF" :: ws) output)
      (Awaits (s.draft (cells ++ [.ref (fields .zeroBranch), .int 0])
        (.addr (s.start.plus (3 + (cells.length + 1))) :: S)) ws output) :=
  leads_control hc .ifWord (by omega) (by simp; omega)
    fun _ _ _ hk => leads_openBranch hc.equipped hn hk

/-- THEN makes the open branch lead to the next free cell. -/
theorem leads_then (hc : s.HasControls fields n)
    (hn : 3 + cells.length ≤ n) (hj : j < cells.length) :
    Leads (Awaits (s.draft cells (.addr (s.start.plus (3 + j)) :: S)) ("THEN" :: ws) output)
      (Awaits (s.draft (cells.set j (.int (Int64.ofNat (cells.length - j)))) S) ws output) :=
  leads_control hc .thenWord hn (by simpa using hn) fun _ _ _ hk => leads_patch hc.equipped hn hj hk

/-- ELSE lays down a branch over the other part, and makes the branch of IF lead behind it. -/
theorem leads_else (hc : s.HasControls fields n)
    (hn : 3 + cells.length + 2 ≤ n) (hj : j < cells.length) :
    Leads (Awaits (s.draft cells (.addr (s.start.plus (3 + j)) :: S)) ("ELSE" :: ws) output)
      (Awaits (s.draft ((cells ++ [Cell.ref (fields .branch), Cell.int 0]).set j
          (.int (Int64.ofNat (cells.length + 2 - j))))
        (.addr (s.start.plus (3 + (cells.length + 1))) :: S)) ws output) := by
  refine leads_control hc .elseWord (by omega) (by simp; omega) fun a R input hk => ?_
  obtain ⟨hopen, hrest⟩ := keeps_append.mp hk
  obtain ⟨hswap, hpatch⟩ := keeps_cons.mp hrest
  have hlen : (cells ++ [Cell.ref (fields .branch), .int 0]).length = cells.length + 2 := by simp
  apply (leads_openBranch hc.equipped hn hopen).trans
  apply (leads_operation .swap hc.equipped (by omega) hswap rfl rfl).trans
  -- the swap brings up the open end of IF, and that of the new branch stays below it
  rw [← hlen, ← Word.plus_plus]
  apply (leads_patch hc.equipped (by omega) (by omega) hpatch).trans
  rw [Word.plus_plus, Word.plus_plus]
  exact Leads.refl _

/-- BEGIN leaves the next free address. -/
theorem leads_begin (hc : s.HasControls fields n)
    (hn : 3 + cells.length ≤ n) :
    Leads (Awaits (s.draft cells S) ("BEGIN" :: ws) output)
      (Awaits (s.draft cells (.addr (s.start.plus (3 + cells.length)) :: S)) ws output) := by
  refine leads_control hc .beginWord hn hn fun a R input hk => ?_
  suffices h : Leads (Shows (s.compiling cells (a.plus 0) R S) input output)
      (Shows (s.compiling cells (a.plus 2) R (.addr (s.start.plus (3 + cells.length)) :: S)) input
        output) by
    rwa [Word.plus_zero] at h
  exact leads_here hc.equipped hn (hk 0 _ rfl) (hk 1 _ rfl)

/-- UNTIL lays down a branch on a false flag back to that address. -/
theorem leads_until (hc : s.HasControls fields n)
    (hn : 3 + cells.length + 2 ≤ n) (hj : j ≤ cells.length) :
    Leads (Awaits (s.draft cells (.addr (s.start.plus (3 + j)) :: S)) ("UNTIL" :: ws) output)
      (Awaits (s.draft (cells ++ [.ref (fields .zeroBranch),
        .int (-Int64.ofNat (cells.length - j + 1))]) S) ws output) :=
  leads_control hc .untilWord (by omega) (by simp; omega)
    fun _ _ _ hk => leads_closeBranch hc.equipped hn hj hk

/-- AGAIN lays down a branch back to that address. -/
theorem leads_again (hc : s.HasControls fields n)
    (hn : 3 + cells.length + 2 ≤ n) (hj : j ≤ cells.length) :
    Leads (Awaits (s.draft cells (.addr (s.start.plus (3 + j)) :: S)) ("AGAIN" :: ws) output)
      (Awaits (s.draft (cells ++ [.ref (fields .branch),
        .int (-Int64.ofNat (cells.length - j + 1))]) S) ws output) :=
  leads_control hc .againWord (by omega) (by simp; omega)
    fun _ _ _ hk => leads_closeBranch hc.equipped hn hj hk

end Words

end Site

end ForthMachine
