import ForthMachine.Proofs.Interpreter.Control
import ForthMachine.Proofs.Structured.Body

namespace ForthMachine

open Memory State Machine

namespace Site

/-- Words of the source that compile as the given cells: wherever they stand in a definition for which
there is room, they add the cells to it and leave the stack as it was. -/
def Compiles (s : Site) (n : Nat) (ws : List String) (code : List Cell) : Prop :=
  ∀ cells S ts output, 3 + cells.length + code.length ≤ n →
    Leads (Awaits (s.draft cells S) (ws ++ ts) output) (Awaits (s.draft (cells ++ code) S) ts output)

section Compiles

variable {s : Site} {fields : Builtin → Word} {n : Nat} {w : String} {e : Entry}
  {xs ys : List String} {as bs : List Cell}

theorem compiles_nil : s.Compiles n [] [] := by
  intro cells S ts output _
  rw [List.append_nil]
  exact Leads.refl _

/-- Words that compile one after another. -/
theorem Compiles.append (hx : s.Compiles n xs as) (hy : s.Compiles n ys bs) :
    s.Compiles n (xs ++ ys) (as ++ bs) := by
  intro cells S ts output hn
  rw [List.length_append] at hn
  rw [List.append_assoc, ← List.append_assoc cells]
  exact (hx cells S _ output (by omega)).trans
    (hy (cells ++ as) S ts output (by rw [List.length_append]; omega))

/-- A visible name that is not immediate compiles as a reference. -/
theorem compiles_word (hr : s.Ready fields n) (hf : s.dictionary.find? w = some e)
    (hi : e.flags.immediate = false) : s.Compiles n [w] [.ref e.code] :=
  fun _ _ _ _ hn => leads_compiled_word hr hn hf hi

/-- A number that is no name compiles as LIT and an integer. -/
theorem compiles_literal {k : Word} (hr : s.Ready fields n) (hf : s.dictionary.find? w = none)
    (hk : Numeral.decimal? w.toList = some k) : s.Compiles n [w] [.builtin .lit, .int k] :=
  fun _ _ _ _ hn => leads_compiled_literal hr hn hf hk

theorem length_branch (cells : List Cell) (r x : Cell) (code : List Cell) :
    (cells ++ [r, x] ++ code).length = cells.length + 2 + code.length := by
  simp only [List.length_append, List.length_cons, List.length_nil]

/-- The offset of an open branch is filled in. -/
theorem set_branch (cells : List Cell) (r x y : Cell) (code : List Cell) :
    (cells ++ [r, x] ++ code).set (cells.length + 1) y = cells ++ [r, y] ++ code := by
  rw [List.append_assoc, List.set_append_right _ _ (by omega), List.append_assoc]
  simp

/-- THEN lets the last open branch lead past the code that was laid down after it. -/
theorem leads_then_branch {cells code : List Cell} {r : Cell} {S : Stack Cell} {ts : List String}
    {output : Option Sink} (hc : s.HasControls fields n)
    (hn : 3 + (cells.length + 2 + code.length) ≤ n) :
    Leads (Awaits (s.draft (cells ++ [r, .int 0] ++ code)
        (.addr (s.start.plus (3 + (cells.length + 1))) :: S)) ("THEN" :: ts) output)
      (Awaits (s.draft (cells ++ [r, .int (Int64.ofNat (code.length + 1))] ++ code) S) ts output) := by
  have hlen := length_branch cells r (.int 0) code
  have hoffset : cells.length + 2 + code.length - (cells.length + 1) = code.length + 1 := by omega
  rw [← set_branch cells r (.int 0) (.int (Int64.ofNat (code.length + 1))), ← hoffset, ← hlen]
  refine leads_then hc ?_ ?_ <;> omega

/-- ELSE opens another branch and lets the one before it lead past that. -/
theorem leads_else_branch {cells code : List Cell} {r : Cell} {S : Stack Cell} {ts : List String}
    {output : Option Sink} (hc : s.HasControls fields n)
    (hn : 3 + (cells.length + 2 + code.length) + 2 ≤ n) :
    Leads (Awaits (s.draft (cells ++ [r, .int 0] ++ code)
        (.addr (s.start.plus (3 + (cells.length + 1))) :: S)) ("ELSE" :: ts) output)
      (Awaits (s.draft (cells ++ [r, .int (Int64.ofNat (code.length + 3))] ++ code ++
          [.ref (fields .branch), .int 0])
        (.addr (s.start.plus (3 + (cells.length + 2 + code.length + 1))) :: S)) ts output) := by
  have hlen := length_branch cells r (.int 0) code
  have hoffset : cells.length + 2 + code.length + 2 - (cells.length + 1) = code.length + 3 := by omega
  have hset := set_branch cells r (.int 0) (.int (Int64.ofNat (code.length + 3)))
    (code ++ [.ref (fields .branch), .int 0])
  rw [← List.append_assoc, ← List.append_assoc] at hset
  rw [← hset, ← hoffset, ← hlen]
  refine leads_else hc ?_ ?_ <;> omega

/-- A conditional compiles as a branch over its part. -/
theorem Compiles.ifThen (hc : s.HasControls fields n)
    (hx : s.Compiles n xs as) :
    s.Compiles n ("IF" :: (xs ++ ["THEN"]))
      ([.ref (fields .zeroBranch), .int (Int64.ofNat (as.length + 1))] ++ as) := by
  intro cells S ts output hn
  simp only [List.length_append, List.length_cons, List.length_nil] at hn
  rw [List.cons_append, List.append_assoc, ← List.append_assoc cells]
  apply (leads_if hc (by omega)).trans
  refine (hx _ _ _ output ?_).trans ?_
  · simp only [List.length_append, List.length_cons, List.length_nil]
    omega
  · exact leads_then_branch hc (by omega)

/-- A conditional with two parts compiles as two branches, the second one over the second part. -/
theorem Compiles.ifElse (hc : s.HasControls fields n)
    (hx : s.Compiles n xs as) (hy : s.Compiles n ys bs) :
    s.Compiles n ("IF" :: (xs ++ "ELSE" :: (ys ++ ["THEN"])))
      ([.ref (fields .zeroBranch), .int (Int64.ofNat (as.length + 3))] ++ as ++
        ([.ref (fields .branch), .int (Int64.ofNat (bs.length + 1))] ++ bs)) := by
  intro cells S ts output hn
  simp only [List.length_append, List.length_cons, List.length_nil] at hn
  have hlen := length_branch cells (.ref (fields .zeroBranch)) (.int (Int64.ofNat (as.length + 3))) as
  have hcells : cells ++ ([.ref (fields .zeroBranch), .int (Int64.ofNat (as.length + 3))] ++ as ++
      ([.ref (fields .branch), .int (Int64.ofNat (bs.length + 1))] ++ bs)) =
      cells ++ [.ref (fields .zeroBranch), .int (Int64.ofNat (as.length + 3))] ++ as ++
        [.ref (fields .branch), .int (Int64.ofNat (bs.length + 1))] ++ bs := by
    simp only [List.append_assoc]
  have hwords : "IF" :: (xs ++ "ELSE" :: (ys ++ ["THEN"])) ++ ts =
      "IF" :: (xs ++ "ELSE" :: (ys ++ "THEN" :: ts)) := by
    simp only [List.cons_append, List.append_assoc, List.nil_append]
  rw [hcells, hwords]
  apply (leads_if hc (by omega)).trans
  refine (hx _ _ _ output ?_).trans ?_
  · simp only [List.length_append, List.length_cons, List.length_nil]
    omega
  apply (leads_else_branch hc (by omega)).trans
  refine (hy _ _ _ output ?_).trans ?_
  · simp only [List.length_append, List.length_cons, List.length_nil]
    omega
  · rw [← hlen]
    apply leads_then_branch hc
    omega

/-- A loop compiles as its body and a branch back to the start. -/
theorem Compiles.loop {close : String} {b : Builtin} (hc : s.HasControls fields n) (hx : s.Compiles n xs as)
    (hclose : ∀ cells j S ts output, 3 + cells.length + 2 ≤ n → j ≤ cells.length →
      Leads (Awaits (s.draft cells (.addr (s.start.plus (3 + j)) :: S)) (close :: ts) output)
        (Awaits (s.draft (cells ++ [.ref (fields b), .int (-Int64.ofNat (cells.length - j + 1))]) S)
          ts output)) :
    s.Compiles n ("BEGIN" :: (xs ++ [close]))
      (as ++ [.ref (fields b), .int (-Int64.ofNat (as.length + 1))]) := by
  intro cells S ts output hn
  simp only [List.length_append, List.length_cons, List.length_nil] at hn
  have hoffset : (cells ++ as).length - cells.length + 1 = as.length + 1 := by simp
  rw [List.cons_append, List.append_assoc, ← List.append_assoc cells]
  apply (leads_begin hc (by omega)).trans
  apply (hx _ _ _ output (by omega)).trans
  rw [← hoffset]
  exact hclose _ _ _ _ _ (by rw [List.length_append]; omega) (by rw [List.length_append]; omega)

/-- A structured body compiles as its layout. The control words are needed only where there are
branches. -/
theorem compiles_body {body : Body String String} {resolved : Body Word Word}
    (hr : s.Ready fields n) (hc : body.isFlat = false → s.HasControls fields n)
    (h : body.resolve? s.dictionary = some resolved) :
    s.Compiles n body.spelling (resolved.code ⟨fields .zeroBranch, fields .branch⟩) := by
  induction body generalizing resolved with
  | empty =>
    cases h
    exact compiles_nil
  | seq first second ihf ihs =>
    simp only [Body.resolve?, Option.pure_def, Option.bind_eq_bind, Option.bind_eq_some_iff,
      Option.some.injEq] at h
    obtain ⟨a, ha, b, hb, rfl⟩ := h
    have hfirst : first.isFlat = false → s.HasControls fields n := fun hf => hc (by simp [Body.isFlat, hf])
    have hsecond : second.isFlat = false → s.HasControls fields n :=
      fun hf => hc (by simp [Body.isFlat, hf])
    exact (ihf hfirst ha).append (ihs hsecond hb)
  | literal token =>
    rw [Body.resolve?] at h
    split at h
    · cases h
    · next hf =>
      obtain ⟨k, hk, rfl⟩ := Option.map_eq_some_iff.mp h
      exact compiles_literal hr hf hk
  | word name =>
    rw [Body.resolve?] at h
    split at h
    · next e hf =>
      split at h
      · cases h
      · next hi =>
        cases h
        exact compiles_word hr hf (by simpa using hi)
    · cases h
  | ifThen yes ih =>
    simp only [Body.resolve?, Option.pure_def, Option.bind_eq_bind, Option.bind_eq_some_iff,
      Option.some.injEq] at h
    obtain ⟨a, ha, rfl⟩ := h
    exact (ih (fun _ => hc rfl) ha).ifThen (hc rfl)
  | ifElse yes no ihy ihn =>
    simp only [Body.resolve?, Option.pure_def, Option.bind_eq_bind, Option.bind_eq_some_iff,
      Option.some.injEq] at h
    obtain ⟨a, ha, b, hb, rfl⟩ := h
    exact (ihy (fun _ => hc rfl) ha).ifElse (hc rfl) (ihn (fun _ => hc rfl) hb)
  | beginUntil body ih =>
    simp only [Body.resolve?, Option.pure_def, Option.bind_eq_bind, Option.bind_eq_some_iff,
      Option.some.injEq] at h
    obtain ⟨a, ha, rfl⟩ := h
    exact (ih (fun _ => hc rfl) ha).loop (hc rfl)
      fun _ _ _ _ _ hn hj => leads_until (hc rfl) hn hj
  | beginAgain body ih =>
    simp only [Body.resolve?, Option.pure_def, Option.bind_eq_bind, Option.bind_eq_some_iff,
      Option.some.injEq] at h
    obtain ⟨a, ha, rfl⟩ := h
    exact (ih (fun _ => hc rfl) ha).loop (hc rfl)
      fun _ _ _ _ _ hn hj => leads_again (hc rfl) hn hj

end Compiles

/-- A built-in word is visible under its name, with its own flags, and its code field does not lie where
the definition is built. -/
def HasWord (s : Site) (n : Nat) (b : Builtin) : Prop :=
  ∃ e, s.dictionary.find? b.name = some e ∧ e.flags.immediate = b.isImmediate ∧
    Fixed s.memory s.start n e.code (.builtin b)

section Definitions

variable {s : Site} {fields : Builtin → Word} {n : Nat} {flags : Flags} {mode : Word}
  {cells code : List Cell} {S S' : Stack Cell} {w : String} {ws ts : List String} {e : Entry}
  {output : Option Sink}

/-- A built-in word that is run while a definition is built, either because it is immediate or because
words are interpreted. -/
theorem leads_built {flags' : Flags} {mode' : Word} {cells' : List Cell} {b : Builtin}
    {x : Action State Unit} (hr : s.Ready fields n) (hn : 3 + cells.length ≤ n)
    (hn' : 3 + cells'.length ≤ n) (hw : s.HasWord n b)
    (hf : (s.built flags mode cells S).dictionary.find? b.name = s.dictionary.find? b.name)
    (hrun : b.isImmediate = true ∨ mode = 0) (ho : b.contract = .ordinary)
    (hb : ∀ code, b.perform code = Builtin.perform.onState x)
    (hx : x (s.built flags mode cells S) = .ok () (s.built flags' mode' cells' S')) :
    Leads (Awaits (s.built flags mode cells S) (b.name :: ws) output)
      (Awaits (s.built flags' mode' cells' S') ws output) := by
  obtain ⟨e, hfind, hi, he⟩ := hw
  have hmode : e.flags.immediate = true ∨ (s.built flags mode cells S).isCompiling = false := by
    rcases hrun with h | h
    · exact .inl (hi.trans h)
    · rw [isCompiling_built (hr.free.mono hn)]
      exact .inr (by simp [h])
  exact leads_ordinary_handOver (hr.loop_memoryWith hn) (hr.loop_memoryWith hn')
    (meaning_of_find? (hf.trans hfind) hmode) (fixed_memoryWith he hn) (hb _) ho hx

/-- The words `[ ' name ] LITERAL` compile a reference as a literal. -/
theorem compiles_quote (hr : s.Ready fields n) (hf : s.dictionary.find? w = some e)
    (hopen : s.HasWord n .leftBracket) (htick : s.HasWord n .tick)
    (hclose : s.HasWord n .rightBracket) (hliteral : s.HasWord n .literal) :
    s.Compiles n ["[", "'", w, "]", "LITERAL"] [.builtin .lit, .ref e.code] := by
  intro cells S ts output hn
  have hroom : 3 + cells.length ≤ n := by omega
  have hfree := hr.free.mono hroom
  refine Leads.trans (leads_built (b := .leftBracket) hr hroom hroom hopen (find?_hidden rfl _)
    (.inl rfl) rfl (fun _ => rfl) (store_state_built hfree 0)) ?_
  have hread : Leads (Awaits (s.built { hidden := true } 0 cells S) ("'" :: w :: "]" :: "LITERAL" :: ts)
      output) (Awaits (s.built { hidden := true } 0 cells (.ref e.code :: S)) ("]" :: "LITERAL" :: ts)
      output) := by
    obtain ⟨t, hfind, -, ht⟩ := htick
    have hmode : (s.built { hidden := true } 0 cells S).isCompiling = false := isCompiling_built hfree
    refine leads_reading_handOver (b := .tick) (hr.loop_memoryWith hroom) (hr.loop_memoryWith hroom)
      (meaning_of_find? ((find?_hidden rfl _).trans hfind) (.inr hmode)) (fixed_memoryWith ht hroom)
      rfl rfl ?_
    intro m hm
    have hbuilt : (s.built { hidden := true } 0 cells S).dictionary.find? w = some e :=
      (find?_hidden rfl w).trans hf
    have hw : m.state.dictionary.find? w = some e := by
      rw [hm]
      exact hbuilt
    simp only [Action.bind_apply, Action.get_apply, hw, onState_apply, push_apply]
    rw [hm]
    rfl
  apply hread.trans
  refine Leads.trans (leads_built (b := .rightBracket) hr hroom hroom hclose (find?_hidden rfl _)
    (.inr rfl) rfl (fun _ => rfl) (store_state_built hfree 1)) ?_
  refine leads_built (b := .literal) (x := Compiler.literal) hr hroom (by simp; omega) hliteral
    (find?_hidden rfl _) (.inl rfl) rfl (fun _ => rfl) ?_
  have hpop : onStack Operand.cell (s.built { hidden := true } 1 cells (.ref e.code :: S)) =
      .ok (.ref e.code) (s.built { hidden := true } 1 cells S) := rfl
  rw [Compiler.literal, Action.bind_apply, hpop]
  exact compileLiteral_built (hr.free.mono hn) _

/-- The word IMMEDIATE turns the flag of a finished definition over. -/
theorem leads_immediate (hr : s.Ready fields n) (hn : 3 + cells.length ≤ n)
    (hw : s.HasWord n .immediate) (hne : s.name ≠ "IMMEDIATE") :
    Leads (Awaits (s.built {} 0 cells S) ("IMMEDIATE" :: ws) output)
      (Awaits (s.built { immediate := true } 0 cells S) ws output) := by
  have hfind : (s.built {} 0 cells S).dictionary.find? "IMMEDIATE" =
      s.dictionary.find? "IMMEDIATE" := by
    change (s.dictionary.insert (s.entry {})).find? _ = _
    rw [Dictionary.find?_insert, if_neg]
    simp [Dictionary.isNamed, entry, hne]
  refine leads_built (b := .immediate) (x := Compiler.immediate) hr hn hn hw hfind (.inl rfl) rfl
    (fun _ => rfl) ?_
  rw [Compiler.immediate, Action.bind_apply, latest_built (hr.free.mono hn)]
  exact modifyFlags_built _

/-- A colon, a name and words that compile leave a definition in the making. -/
theorem leads_unfinished (hr : s.Ready fields n) (ho : s.Opens) (hcolon : s.HasWord n .colon)
    (hc : s.Compiles n ws code) (hn : 3 + (code.length + 1) ≤ n) :
    Leads (Awaits (s.outset S) (":" :: s.name :: (ws ++ ts)) output)
      (Awaits (s.draft (.builtin .docol :: code) S) ts output) := by
  obtain ⟨c, hfind, -, hfix⟩ := hcolon
  apply (leads_colon hr (by omega) ho hr.loop_memory hfind hfix.cell).trans
  exact hc _ S _ output (by simp; omega)

/-- A colon, a name, words that compile and a semicolon add a definition. -/
theorem leads_definition (hr : s.Ready fields n) (ho : s.Opens) (hcolon : s.HasWord n .colon)
    (hsemicolon : s.HasWord n .semicolon) (hc : s.Compiles n ws code)
    (hn : 3 + (code.length + 2) ≤ n) :
    Leads (Awaits (s.outset S) (":" :: s.name :: (ws ++ ";" :: ts)) output)
      (Awaits (s.built {} 0 (.builtin .docol :: (code ++ [.builtin .exit])) S) ts output) := by
  obtain ⟨d, hfind, hid, hfix⟩ := hsemicolon
  apply (leads_unfinished hr ho hcolon hc (by omega)).trans
  exact leads_semicolon hr (by simp; omega) hfind hid hfix

end Definitions

end Site

end ForthMachine
