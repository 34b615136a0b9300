import ForthMachine.Proofs.Image.Compilation
import ForthMachine.Proofs.Image.Plain

namespace ForthMachine

open Memory State Machine Blueprint

namespace Machine

/-- Two evaluations end alike: with the same stacks and output, or with traps of one kind in one word and
the same parameter stack and output. -/
def Agrees : Outcome × Machine → Outcome × Machine → Prop
  | (.finished, m), (.finished, m') =>
    m.state.stack = m'.state.stack ∧ m.state.returns = m'.state.returns ∧
      m.console.output = m'.console.output
  | (.trapped t, m), (.trapped t', m') =>
    t.kind = t'.kind ∧ t.word = t'.word ∧ m.state.stack = m'.state.stack ∧
      m.console.output = m'.console.output
  | _, _ => False

def EndsWith (R : Stack Word) : Effect → Outcome × Machine → Prop
  | .done S o, (.finished, m) => m.state.stack = S ∧ m.state.returns = R ∧ m.console.output = o
  | .trapped kind word S o, (.trapped t, m) =>
    t.kind = kind ∧ t.word = word ∧ m.state.stack = S ∧ m.console.output = o
  | _, _ => False

/-- Two evaluations with one effect agree. -/
theorem EndsWith.agrees {R : Stack Word} {r : Effect} {x y : Outcome × Machine} (hx : EndsWith R r x)
    (hy : EndsWith R r y) : Agrees x y := by
  obtain ⟨a, m⟩ := x
  obtain ⟨b, m'⟩ := y
  cases r with
  | done S o =>
    cases a <;> cases b <;> simp only [EndsWith] at hx hy
    obtain ⟨hs, hr, ho⟩ := hx
    obtain ⟨hs', hr', ho'⟩ := hy
    exact ⟨hs.trans hs'.symm, hr.trans hr'.symm, ho.trans ho'.symm⟩
  | trapped kind word S o =>
    cases a <;> cases b <;> simp only [EndsWith] at hx hy
    obtain ⟨hk, hw, hs, ho⟩ := hx
    obtain ⟨hk', hw', hs', ho'⟩ := hy
    exact ⟨hk.trans hk'.symm, hw.trans hw'.symm, hs.trans hs'.symm, ho.trans ho'.symm⟩

/-- An evaluation in which the outer interpreter has an effect ends with it. -/
theorem evaluate_of_interprets (img : Image) (m : Machine) {cs : List Char} {M : Memory}
    {D : Dictionary} {r : Effect} (hq : Loop img.quit M) (ha : m.console.KeepsTraceApart)
    (hk : ∀ kind word S o, r = .trapped kind word S o → kind ∈ Effect.reasons)
    (h : Interprets M D img.quit m.state.returns [] (Awaits (running m.state.memory m.state.dictionary
      img.quit m.state.returns m.state.stack) (Source.words cs) (some m.console.output)) r) :
    ∃ n x, (∀ fuel, n ≤ fuel → img.evaluate fuel { rest := cs } m = x) ∧
      EndsWith m.state.returns r x := by
  have hout : ∀ o, some m.console.output = some o →
      m.console.KeepsTraceApart ∧ m.console.output = o := by
    intro o ho
    cases ho
    exact ⟨ha, rfl⟩
  cases r with
  | done S o =>
    obtain ⟨n, m', heval, hstate, -, hout'⟩ := evaluate_of_leads img m hq hout h
    refine ⟨n, _, heval, ?_⟩
    refine ⟨?_, ?_, (hout' o rfl).2⟩
    · rw [hstate]
      rfl
    · rw [hstate]
      rfl
  | trapped kind word S o =>
    have hreason : kind ≠ .bye ∧ kind ≠ .endOfInput := by
      have hall : ∀ k ∈ Effect.reasons, k ≠ .bye ∧ k ≠ .endOfInput := by decide
      exact hall kind (hk kind word S o rfl)
    obtain ⟨n, t, m', heval, hkind, hword, hstack, houtput⟩ := evaluate_of_fails img m hout hreason h
    exact ⟨n, _, heval, hkind, hword, hstack, houtput⟩

end Machine

namespace Image

/-- What has to mean what it meant at the installation: the plain words, those of a definition, and the
built-in words that all these are made of. -/
def textual : Usage where
  words := ":" :: ";" :: plainNames
  builtins := [.interpret, .branch, .zeroBranch, .colon, .semicolon] ++ Operation.all.map Operation.builtin

variable {base h : Word} {st : State} {tokens : List String} {n : Nat} {link : Cell} {name : String}

/-- Wherever the image is kept, a plain word has its name. -/
theorem find?_plain (hk : (image base).Keeps textual (idle base parts) st) {p : Plain}
    (hp : p ∈ plains) : st.dictionary.find? p.name = some (visible base p.part) := by
  have hw : p.name ∈ textual.words := by
    simp only [textual, List.mem_cons]
    exact .inr (.inr (List.mem_map_of_mem hp))
  have hfind : (placed base parts).dictionary.find? p.part.name = some (visible base p.part) :=
    find?_parts (part_mem hp)
  rw [Plain.part_name] at hfind
  exact (hk.names _ hw).trans hfind

theorem builtin_mem (op : Operation) : op.builtin ∈ textual.builtins := by
  cases op <;> decide

theorem keeps_plain (hf : Free base (size parts))
    (hk : (image base).Keeps textual (idle base parts) st)
    (hr : Room (image base) textual (idle base parts) st h n) {p : Plain} (hp : p ∈ plains) :
    st.memory.Keeps h n (field base p.name) (p.part.cells (field base)) := by
  cases p with
  | operation op => exact keeps_singleton.mpr (fixed_builtin_of_keeps hf hk hr (builtin_mem op))
  | definition name body =>
    have hw : (colon name body).name ∈ textual.words := by
      simp only [textual, List.mem_cons]
      exact .inr (.inr (List.mem_map_of_mem (f := Plain.name) hp))
    exact keeps_definition_of_keeps hf hk hr (part_mem hp) hw rfl

/-- Wherever the image is kept, memory holds the plain words with their meanings. -/
theorem laid_of_keeps (hf : Free base (size parts))
    (hk : (image base).Keeps textual (idle base parts) st)
    (hr : Room (image base) textual (idle base parts) st h n) :
    Laid ⟨builtinField base .zeroBranch, builtinField base .branch⟩ (meanings base) st.memory :=
  laid_of_cells (fixed_builtin_of_keeps hf hk hr (by decide)).cell
    (fixed_builtin_of_keeps hf hk hr (by decide)).cell fun _ hp => (keeps_plain hf hk hr hp).holds

/-- They are still there when a definition has been built. -/
theorem laid_memoryWith (hf : Free base (size parts))
    (hk : (image base).Keeps textual (idle base parts) st)
    (hr : Room (image base) textual (idle base parts) st h n) {mode : Word} {cells : List Cell}
    (hn : 3 + cells.length ≤ n) :
    Laid ⟨builtinField base .zeroBranch, builtinField base .branch⟩ (meanings base)
      ((siteOf base st h link name).memoryWith mode cells) :=
  laid_of_cells (Site.fixed_memoryWith (fixed_builtin_of_keeps hf hk hr (by decide)) hn)
    (Site.fixed_memoryWith (fixed_builtin_of_keeps hf hk hr (by decide)) hn)
    fun _ hp => Site.keeps_memoryWith (keeps_plain hf hk hr hp) hn

/-- Evaluating plain words and numbers, and evaluating a definition of the same words and its name, end
alike on every stack. The image was installed in a fresh machine; since then everything may have changed
but the words themselves, the colon and the semicolon, the outer interpreter and the code fields of the
built-in words that these are made of. -/
theorem interpreting_agrees_with_compiling {fuel : Nat} {base : Word} {console : Console} {img : Image}
    {installed m : Machine} {tokens : List String} {name : String} {link : Cell} {h : Word}
    {cs ds : List Char}
    (hi : install fuel base { console } = (.ok img, installed))
    (hk : img.Keeps textual installed.state m.state)
    (hm : m.state.isCompiling = false)
    (hl : m.state.latestLink = .ok link)
    (hr : img.Room textual installed.state m.state h (tokenSize tokens))
    (ha : m.console.KeepsTraceApart)
    (ht : ∀ t ∈ tokens, t ∈ plainNames ∨
      m.state.dictionary.find? t = none ∧ (Numeral.decimal? t.toList).isSome)
    (hc : Source.words cs = tokens)
    (hd : Source.words ds = ":" :: name :: (tokens ++ [";", name])) :
    ∃ n x y, (∀ fuel, n ≤ fuel → img.evaluate fuel { rest := cs } m = x) ∧
      (∀ fuel, n ≤ fuel → img.evaluate fuel { rest := ds } m = y) ∧ Agrees x y := by
  obtain ⟨hbase, rfl, hstate⟩ := install_result hi
  have hf : Free base (size parts) := free_of_isValidBase hbase (by decide)
  rw [hstate] at hk hr
  have hready : (siteOf base m.state h link name).Ready (builtinField base) (tokenSize tokens) :=
    ready_of_keeps hf hk hr (by decide) (by decide)
  have hopens : (siteOf base m.state h link name).Opens := ⟨hr.here, hl, hm⟩
  have hcolon : (siteOf base m.state h link name).HasWord (tokenSize tokens) .colon :=
    hasWord_of_keeps hf hk hr (by simp [textual, Builtin.name]) (by decide)
  have hsemicolon : (siteOf base m.state h link name).HasWord (tokenSize tokens) .semicolon :=
    hasWord_of_keeps hf hk hr (by simp [textual, Builtin.name]) (by decide)
  have hresolve := resolve?_tokenBody (fun p hp => find?_plain hk hp) ht
  -- both evaluations are compared with the effect of the body
  obtain ⟨r, heval⟩ : ∃ r, Body.Eval (meanings base) ((tokenBody tokens).locate (field base))
      m.state.stack m.console.output r := total_tokenBody hf _ _
  have hreasons := heval.kind_of_trapped
  have hplain : Interprets m.state.memory m.state.dictionary (image base).quit m.state.returns []
      (Awaits (running m.state.memory m.state.dictionary (image base).quit m.state.returns m.state.stack)
        ((tokenBody tokens).spelling ++ []) (some m.console.output)) r :=
    interprets_body hready.loop_memory (laid_of_keeps hf hk hr) isFlat_tokenBody hresolve
      (fun _ => hm) heval
  rw [spelling_tokenBody, List.append_nil, ← hc] at hplain
  obtain ⟨n, x, hx, hendx⟩ := evaluate_of_interprets (image base) m hready.loop_memory ha hreasons hplain
  have hsize := Nat.le_of_eq (length_code_tokenBody tokens
    ⟨builtinField base .zeroBranch, builtinField base .branch⟩ (field base))
  obtain ⟨M, D, hdefined, hloop⟩ := Site.interprets_defined hready hopens hcolon hsemicolon
    isFlat_tokenBody hresolve hsize (fun _ _ hn => laid_memoryWith hf hk hr hn) heval
  rw [spelling_tokenBody] at hdefined
  have hsource : Interprets M D (image base).quit m.state.returns []
      (Awaits (running m.state.memory m.state.dictionary (image base).quit m.state.returns m.state.stack)
        (Source.words ds) (some m.console.output)) r := by
    rw [hd]
    exact hdefined
  obtain ⟨k, y, hy, hendy⟩ := evaluate_of_interprets (image base) m hloop ha hreasons hsource
  refine ⟨max n k, x, y, fun fuel hfuel => hx fuel ?_, fun fuel hfuel => hy fuel ?_, hendx.agrees hendy⟩
  · omega
  · omega

/-- A quotient is printed, and then a division by zero stops both evaluations in the same word. -/
theorem division_agrees_with_compiling :
    ∃ fuel installed x y,
      install fuel 16 {} = (.ok ⟨16, 228⟩, installed) ∧
      (⟨16, 228⟩ : Image).evaluate fuel { rest := "7 2 / . 5 0 MOD".toList } installed = x ∧
      (⟨16, 228⟩ : Image).evaluate fuel { rest := ": T 7 2 / . 5 0 MOD ; T".toList } installed = y ∧
      Agrees x y := by
  have hbase : isValidBase defaultBase = true := by decide
  have hf : Free defaultBase (size parts) := (free_default (Nat.zero_le _)).mono (by omega)
  obtain ⟨n, installed, hinstall, hstate, -, hconsole⟩ := install_apply hbase {}
  rw [← image, image_default] at hinstall
  have hmode : installed.state.isCompiling = false := by
    rw [hstate]
    exact isCompiling_of_zero (sound_parts hf).state
  have hlink : installed.state.latestLink = .ok (placed defaultBase parts).link := by
    rw [hstate]
    exact (sound_parts hf).latestLink rfl
  have hsize : tokenSize ["7", "2", "/", ".", "5", "0", "MOD"] = 16 := by decide +kernel
  have hroom : (⟨16, 228⟩ : Image).Room textual installed.state installed.state 427
      (tokenSize ["7", "2", "/", ".", "5", "0", "MOD"]) := by
    rw [hstate, hsize, ← image_default, ← end_default]
    exact room_behind (free_default (by decide)) (bound_default (by decide)) (here_parts hf)
  have htokens : ∀ t ∈ ["7", "2", "/", ".", "5", "0", "MOD"], t ∈ plainNames ∨
      installed.state.dictionary.find? t = none ∧ (Numeral.decimal? t.toList).isSome := by
    have hall : ∀ t ∈ ["7", "2", "/", ".", "5", "0", "MOD"], t ∈ plainNames ∨
        t ∉ parts.map Part.name ∧ (Numeral.decimal? t.toList).isSome := by decide +kernel
    intro t ht
    rw [hstate]
    exact (hall t ht).imp_right fun h => ⟨find?_placed_none h.1, h.2⟩
  have hplain : Source.words "7 2 / . 5 0 MOD".toList = ["7", "2", "/", ".", "5", "0", "MOD"] := by
    decide +kernel
  have hdefined : Source.words ": T 7 2 / . 5 0 MOD ; T".toList =
      ":" :: "T" :: (["7", "2", "/", ".", "5", "0", "MOD"] ++ [";", "T"]) := by
    decide +kernel
  obtain ⟨k, x, y, hx, hy, hagree⟩ := interpreting_agrees_with_compiling
    (hinstall n (Nat.le_refl n)) ⟨fun _ _ => rfl, fun _ _ => rfl⟩ hmode hlink hroom
    (hconsole (.inl rfl)).1 htokens hplain hdefined
  exact ⟨max n k, installed, x, y, hinstall _ (Nat.le_max_left n k), hx _ (Nat.le_max_right n k),
    hy _ (Nat.le_max_right n k), hagree⟩

def traced : Machine where
  state := idle defaultBase parts
  console := { tracing := true }

theorem evaluate_traced :
    ((⟨16, 228⟩ : Image).evaluate 16 { rest := "1".toList } traced).1 = .finished ∧
      ((⟨16, 228⟩ : Image).evaluate 16 { rest := ": T 1 ; T".toList } traced).1 = .finished ∧
      ((⟨16, 228⟩ : Image).evaluate 16 { rest := "1".toList } traced).2.console.output.delivered ≠
        ((⟨16, 228⟩ : Image).evaluate 16 { rest := ": T 1 ; T".toList }
          traced).2.console.output.delivered := by
  decide +kernel

/-- A state that is reached from an installed image and in which the words have been left alone, but in
which interpreting and compiling do not agree: the variable LATEST holds a text, so that a number can be
interpreted but no definition can be built. Nor do their outputs agree when they hold the trace. -/
theorem damaged_chain_parts_compiling_from_interpreting :
    ∃ fuel fuel' installed m m',
      install fuel 16 {} = (.ok ⟨16, 228⟩, installed) ∧
      (⟨16, 228⟩ : Image).evaluate fuel { rest := "WORD X LATEST !".toList } installed =
        (.finished, m) ∧
      (⟨16, 228⟩ : Image).Keeps textual installed.state m.state ∧
      m.state.isCompiling = false ∧
      (⟨16, 228⟩ : Image).Room textual installed.state m.state 427 (tokenSize ["1"]) ∧
      m.state.dictionary.find? "1" = none ∧ Numeral.decimal? "1".toList = some 1 ∧
      m.state.dictionary.find? "T" = none ∧ Numeral.decimal? "T".toList = none ∧
      (⟨16, 228⟩ : Image).evaluate fuel' { rest := "1".toList } m = (.finished, m') ∧
      (∀ n, ((⟨16, 228⟩ : Image).evaluate n { rest := ": T 1 ; T".toList } m).1 ≠ .finished) ∧
      ∃ x y,
        (⟨16, 228⟩ : Image).evaluate 16 { rest := "1".toList }
          { installed with console := { tracing := true } } = (.finished, x) ∧
        (⟨16, 228⟩ : Image).evaluate 16 { rest := ": T 1 ; T".toList }
          { installed with console := { tracing := true } } = (.finished, y) ∧
        x.console.output.delivered ≠ y.console.output.delivered := by
  have hf : Free defaultBase (size parts) := (free_default (Nat.zero_le _)).mono (by omega)
  have hnone (w : String) (hw : w ∉ parts.map Part.name) :
      (damaged defaultBase).dictionary.find? w = none := find?_placed_none hw
  have hone := hnone "1" (by decide +kernel)
  have hdecimal : Numeral.decimal? "1".toList = some 1 := by decide +kernel
  have hdefined : Source.words ": T 1 ; T".toList = ":" :: "T" :: ["1", ";", "T"] := by
    decide +kernel
  obtain ⟨fuel, installed, m, hinstall, heval, hstate, hm⟩ := reaches_damaged
  have hnumber : Leads (Awaits (running m.state.memory m.state.dictionary (image defaultBase).quit
      m.state.returns m.state.stack) (Source.words "1".toList) none)
      (Awaits (running (damaged defaultBase).memory (damaged defaultBase).dictionary
        (image defaultBase).quit [] [.int 1]) [] none) := by
    rw [hm, show Source.words "1".toList = ["1"] by decide +kernel]
    exact leads_number (loop_damaged hf) hone hdecimal (isCompiling_damaged hf)
  obtain ⟨k, m', hfinished, -⟩ := evaluate_of_leads (image defaultBase) m
    (loop_damaged hf) (by simp) hnumber
  rw [image_default] at hfinished
  refine ⟨fuel, k, installed, m, m', hinstall, heval, ?_, ?_, ?_, ?_, hdecimal, ?_, by decide +kernel,
    hfinished k (Nat.le_refl k), ?_, ?_⟩
  · rw [hstate, hm, ← image_default]
    exact keeps_damaged hf
  · rw [hm]
    exact isCompiling_damaged hf
  · rw [hstate, hm, ← image_default, ← end_default]
    exact room_damaged (free_default (by decide +kernel)) (bound_default (by decide +kernel))
  · rw [hm]
    exact hone
  · rw [hm]
    exact hnone "T" (by decide +kernel)
  · rw [← image_default]
    exact evaluate_damaged_ne_finished hf hm hdefined
  · obtain ⟨hx, hy, hne⟩ := evaluate_traced
    have hsplit (p : Outcome × Machine) (h : p.1 = .finished) : p = (.finished, p.2) := Prod.ext h rfl
    rw [show ({ installed with console := { tracing := true } } : Machine) = traced by
      rw [hstate, traced]]
    exact ⟨_, _, hsplit _ hx, hsplit _ hy, hne⟩

end Image

end ForthMachine
