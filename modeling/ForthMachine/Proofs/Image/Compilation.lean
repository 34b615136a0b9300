import ForthMachine.Proofs.Image.Essential

namespace ForthMachine

open Memory State Machine Blueprint

namespace Image

/-- What compiles a structured definition: the words in its source, and the built-in words. -/
def compiler : Usage where
  words := [":", ";", "IF", "ELSE", "THEN", "BEGIN", "UNTIL", "AGAIN"]
  builtins := Builtin.all

/-- The outcome of compiling a definition: the stacks are as they were, words are interpreted, the name
is that of the newest entry, which is visible and not immediate, and the given cells lie from its code
field up to the next free address. -/
structure Defines (name : String) (cells : List Cell) (st : State) (h : Word) (st' : State) : Prop where
  stack : st'.stack = st.stack
  returns : st'.returns = st.returns
  mode : st'.memory[stateAddress]? = some (.int 0)
  entries : st'.dictionary.entries = st.dictionary.entries.push { name, code := h.plus 3 }
  found : st'.dictionary.find? name = some { name, code := h.plus 3 }
  code : st'.memory.Holds (h.plus 3) cells
  here : st'.memory[hereAddress]? = some (.addr (h.plus (3 + cells.length)))

/-- A draft with all of its cells is what the compiler is asked for. -/
theorem defines_built {base : Word} {st : State} {h : Word} {link : Cell} {name : String}
    {cells : List Cell} (hf : Free h (3 + cells.length)) :
    Defines name cells st h ((siteOf base st h link name).built {} 0 cells st.stack) where
  stack := rfl
  returns := rfl
  mode := Site.state_memoryWith hf
  entries := rfl
  found := Site.find?_visible rfl
  code := enter_holds_code hf
  here := enter_here

/-- A definition is compiled to the layout of its body. The image was installed in a fresh machine; since
then everything may have changed but the words that compile, the outer interpreter and the code fields
of the built-in words. -/
theorem definition_compiles_to_layout {fuel : Nat} {base : Word} {console : Console} {img : Image}
    {installed m : Machine} {name : String} {body : Body String String} {resolved : Body Word Word}
    {zeroBranch branch : Entry} {link : Cell} {h : Word} {cs : List Char}
    (hi : install fuel base { console } = (.ok img, installed))
    (hz : installed.state.dictionary.find? "0BRANCH" = some zeroBranch)
    (hb : installed.state.dictionary.find? "BRANCH" = some branch)
    (hk : img.Keeps compiler installed.state m.state)
    (hm : m.state.isCompiling = false)
    (hl : m.state.latestLink = .ok link)
    (hr : img.Room compiler installed.state m.state h
      (3 + ((resolved.code ⟨zeroBranch.code, branch.code⟩).length + 2)))
    (hw : Source.words cs = ":" :: name :: (body.spelling ++ [";"]))
    (hs : body.resolve? m.state.dictionary = some resolved) :
    ∃ n m', (∀ fuel, n ≤ fuel → img.evaluate fuel { rest := cs } m = (.finished, m')) ∧
      Defines name
        (.builtin .docol :: (resolved.code ⟨zeroBranch.code, branch.code⟩ ++ [.builtin .exit]))
        m.state h m'.state := by
  obtain ⟨hbase, rfl, hstate⟩ := install_result hi
  have hf : Free base (size parts) := free_of_isValidBase hbase (by decide)
  rw [hstate] at hz hb hk hr
  obtain rfl : zeroBranch = visible base (ofBuiltin .zeroBranch) :=
    Option.some.inj (hz.symm.trans (find?_builtin base .zeroBranch))
  obtain rfl : branch = visible base (ofBuiltin .branch) :=
    Option.some.inj (hb.symm.trans (find?_builtin base .branch))
  have hall : ∀ b : Builtin, b ∈ compiler.builtins := by
    intro b
    cases b <;> decide
  have hcolon : (siteOf base m.state h link name).HasWord _ .colon :=
    hasWord_of_keeps hf hk hr (by decide) (hall _)
  have hsemicolon : (siteOf base m.state h link name).HasWord _ .semicolon :=
    hasWord_of_keeps hf hk hr (by decide) (hall _)
  have hcontrols : (siteOf base m.state h link name).HasControls (builtinField base) _ :=
    hasControls_of_keeps hf hk hr (by intro k; cases k <;> decide) hall
  have hready := hcontrols.equipped.toReady
  have hopens : (siteOf base m.state h link name).Opens := ⟨hr.here, hl, hm⟩
  have hcompiles := Site.compiles_body hready (fun _ => hcontrols) hs
  -- nothing is said about the output, so trace text does no harm
  have hleads : Leads (Awaits (running m.state.memory m.state.dictionary (quitAddress base)
      m.state.returns m.state.stack) (Source.words cs) none)
      (Awaits ((siteOf base m.state h link name).built {} 0 (.builtin .docol :: (resolved.code
        ⟨builtinField base .zeroBranch, builtinField base .branch⟩ ++ [.builtin .exit])) m.state.stack)
        [] none) := by
    rw [hw]
    exact Site.leads_definition hready hopens hcolon hsemicolon hcompiles (Nat.le_refl _)
  have hlen : 3 + (.builtin .docol :: (resolved.code ⟨builtinField base .zeroBranch,
      builtinField base .branch⟩ ++ [.builtin .exit]) : List Cell).length =
      3 + ((resolved.code ⟨builtinField base .zeroBranch, builtinField base .branch⟩).length + 2) := by
    simp
  obtain ⟨n, m', heval, hstate', -⟩ := evaluate_of_leads (image base) m
    (hready.loop_memoryWith (Nat.le_of_eq hlen)) (by simp) hleads
  refine ⟨n, m', heval, ?_⟩
  rw [hstate']
  exact defines_built (hready.free.mono (Nat.le_of_eq hlen))

/-- A loop in one branch of a conditional, compiled right after the installation. -/
theorem countdown_compiles_to_layout :
    ∃ fuel installed m',
      install fuel 16 {} = (.ok ⟨16, 228⟩, installed) ∧
      (⟨16, 228⟩ : Image).evaluate fuel
        { rest := ": N DUP IF BEGIN 1 - DUP 0= UNTIL ELSE DROP THEN ;".toList } installed =
          (.finished, m') ∧
      Defines "N" [.builtin .docol, .ref 23, .ref 127, .int 10, .builtin .lit, .int 1, .ref 63, .ref 23,
        .ref 87, .ref 127, .int (-6), .ref 123, .int 2, .ref 19, .builtin .exit]
        installed.state 427 m'.state := by
  have hbase : isValidBase defaultBase = true := by decide
  obtain ⟨n, installed, hinstall, hstate, -⟩ := install_apply hbase {}
  rw [← image, image_default] at hinstall
  have hparts : Free defaultBase (size parts) := (free_default (Nat.zero_le _)).mono (by omega)
  obtain ⟨body, hbody⟩ : ∃ body : Body String String, body = .seq (.word "DUP") (.ifElse
    (.beginUntil (.seq (.literal "1") (.ofWords ["-", "DUP", "0="]))) (.word "DROP")) := ⟨_, rfl⟩
  have hresolve : body.resolve? installed.state.dictionary =
      some (body.locate (field defaultBase)) := by
    rw [hstate]
    exact resolve?_placed (List.append_nil parts).symm (by rw [hbody]; decide +kernel)
  have hcode : (body.locate (field defaultBase)).code ⟨field defaultBase "0BRANCH",
      field defaultBase "BRANCH"⟩ = [.ref 23, .ref 127, .int 10, .builtin .lit, .int 1, .ref 63,
        .ref 23, .ref 87, .ref 127, .int (-6), .ref 123, .int 2, .ref 19] := by
    have hfields : ["DUP", "0BRANCH", "-", "0=", "BRANCH", "DROP"].map (field defaultBase) =
        [23, 127, 63, 87, 123, 19] := by
      simp only [List.map_cons, List.map_nil, field]
      decide +kernel
    simp only [List.map_cons, List.map_nil, List.cons.injEq, and_true] at hfields
    obtain ⟨hdup, hzero, hminus, heq, hbranch, hdrop⟩ := hfields
    rw [hbody]
    simp only [Body.locate, Body.ofWords, Body.ofList, List.map_cons, List.map_nil, Body.code, hdup,
      hzero, hminus, heq, hbranch, hdrop]
    decide +kernel
  have hroom : (image defaultBase).Room compiler installed.state installed.state 427
      (3 + (((body.locate (field defaultBase)).code ⟨field defaultBase "0BRANCH",
        field defaultBase "BRANCH"⟩).length + 2)) := by
    rw [hstate, hcode, ← end_default]
    exact room_behind (free_default (by decide)) (bound_default (by decide)) (here_parts hparts)
  rw [image_default] at hroom
  have hzero : installed.state.dictionary.find? "0BRANCH" =
      some (visible defaultBase (ofBuiltin .zeroBranch)) := by
    rw [hstate]
    exact find?_builtin _ .zeroBranch
  have hbranch : installed.state.dictionary.find? "BRANCH" =
      some (visible defaultBase (ofBuiltin .branch)) := by
    rw [hstate]
    exact find?_builtin _ .branch
  have hmode : installed.state.isCompiling = false := by
    rw [hstate]
    exact isCompiling_of_zero (sound_parts hparts).state
  have hlink : installed.state.latestLink = .ok (placed defaultBase parts).link := by
    rw [hstate]
    exact (sound_parts hparts).latestLink rfl
  have hwords : Source.words ": N DUP IF BEGIN 1 - DUP 0= UNTIL ELSE DROP THEN ;".toList =
      ":" :: "N" :: (body.spelling ++ [";"]) := by
    rw [hbody]
    decide +kernel
  obtain ⟨k, m', heval, hdefines⟩ := definition_compiles_to_layout (hinstall n (Nat.le_refl n)) hzero
    hbranch ⟨fun _ _ => rfl, fun _ _ => rfl⟩ hmode hlink hroom hwords hresolve
  have hcells : (.builtin .docol :: ((body.locate (field defaultBase)).code ⟨field defaultBase "0BRANCH",
      field defaultBase "BRANCH"⟩ ++ [.builtin .exit]) : List Cell) = [.builtin .docol, .ref 23,
        .ref 127, .int 10, .builtin .lit, .int 1, .ref 63, .ref 23, .ref 87, .ref 127, .int (-6),
        .ref 123, .int 2, .ref 19, .builtin .exit] := by
    rw [hcode]
    rfl
  refine ⟨max n k, installed, m', hinstall _ (Nat.le_max_left n k), heval _ (Nat.le_max_right n k), ?_⟩
  rw [← hcells]
  exact hdefines

theorem latestLink_text {st : State} {s : String}
    (h : st.memory[latestAddress]? = some (.text s)) :
    st.latestLink = .error { kind := .invalidAddress, address := latestAddress } := by
  rw [latestLink, h]
  rfl

/-- The colon stops at a link that cannot be made, when it has read the name. -/
theorem raises_colon {st : State} {t : Trap} {code h : Word} {d : Cell} {name : String}
    {ws : List String} {output : Option Sink} (hd : st.memory[hereAddress]? = some d)
    (hh : d.address? = some h) (hl : st.latestLink = .error t) (ht : t.word = "") :
    Raises code (.builtin .colon) (Awaits st (name :: ws) output) t.kind (Awaits st ws output) := by
  intro m hm
  obtain ⟨m₁, hword, hm₁⟩ := nextWord_of_awaits hm
  have hstate := hm₁.state
  -- the name has been read when the link turns out to be none
  have hbegin : Compiler.beginDefinition name st = .error (.trap t) st := by
    simp [Compiler.beginDefinition, define, fetchAddress_of_getElem? hd hh, hl]
  have hcolon : Compiler.colon m = .error (.trap t) { m₁ with state := st } := by
    simp only [Compiler.colon, Action.bind_apply, hword, onState_apply, hstate, hbegin]
  refine ⟨t, { m₁ with state := st }, ?_, ht, rfl, hm₁.withState st⟩
  have hperform : Builtin.perform code .colon m = .error (.trap t) { m₁ with state := st } := by
    change Builtin.perform.finish Compiler.colon m = _
    rw [Builtin.perform_finish_apply, hcolon]
  simp only [Primitive.perform, Builtin.contract, Action.bind_apply, hperform]

section Damage

variable {base : Word} {output : Option Sink} {u : Usage} {ws : List String} {n : Nat}

def damaged (base : Word) : State :=
  running ((placed base parts).memory.insert latestAddress (.text "X"))
    (placed base parts).dictionary (quitAddress base) [] []

/-- The damage does not reach any part of the image. -/
theorem keeps_damaged (hf : Free base (size parts)) :
    (image base).Keeps u (idle base parts) (damaged base) :=
  keeps_insert hf _ (by simp) ⟨fun _ _ => rfl, fun _ _ => rfl⟩

theorem isCompiling_damaged (hf : Free base (size parts)) : (damaged base).isCompiling = false := by
  exact isCompiling_of_zero ((getElem?_insert_ne _ _ (by decide)).trans (sound_parts hf).state)

theorem room_damaged (hf : Free base (size parts + n))
    (hb : (base.plus (size parts)).toInt + n ≤ Word.bound) :
    (image base).Room u (idle base parts) (damaged base) (base.plus (size parts)) n := by
  apply room_behind hf hb
  exact (getElem?_insert_ne _ _ (by decide)).trans (here_parts (hf.mono (by omega)))

/-- What the words `WORD X LATEST !` do where the built-in words are found and run. -/
theorem leads_store_latest {M : Memory} {D : Dictionary} {quit : Word} {field : Builtin → Word}
    (hl : Loop quit M) (hl' : Loop quit (M.insert latestAddress (.text "X")))
    (hm : ∀ S b, Compiler.meaning b.name (running M D quit [] S) =
      .ok (some (field b)) (running M D quit [] S))
    (hc : ∀ b, M[field b]? = some (.builtin b)) :
    Leads (Awaits (running M D quit [] []) ["WORD", "X", "LATEST", "!"] output)
      (Awaits (running (M.insert latestAddress (.text "X")) D quit [] []) [] output) := by
  have hword : Leads (Awaits (running M D quit [] []) ["WORD", "X", "LATEST", "!"] output)
      (Awaits (running M D quit [] [.text "X"]) ["LATEST", "!"] output) := by
    refine leads_reading_handOver (b := .word) (y := fun name => onState (push (.text name))) hl hl
      (hm [] .word) (hc .word) rfl rfl ?_
    intro m hstate
    rw [onState_apply, hstate]
    rfl
  have hlatest : Leads (Awaits (running M D quit [] [.text "X"]) ["LATEST", "!"] output)
      (Awaits (running M D quit [] [.addr latestAddress, .text "X"]) ["!"] output) :=
    leads_ordinary_handOver (b := .latest) hl hl (hm _ .latest) (hc .latest) rfl rfl rfl
  have hstore : Leads (Awaits (running M D quit [] [.addr latestAddress, .text "X"]) ["!"] output)
      (Awaits (running (M.insert latestAddress (.text "X")) D quit [] []) [] output) :=
    leads_ordinary_handOver (b := .store) hl hl' (hm _ .store) (hc .store) rfl rfl rfl
  exact hword.trans (hlatest.trans hstore)

theorem builtin_damaged (hf : Free base (size parts)) (b : Builtin) :
    (damaged base).memory[builtinField base b]? = some (.builtin b) := by
  have hfixed : Fixed (placed base parts).memory _ _ (builtinField base b) (.builtin b) :=
    fixed_builtin (List.append_nil parts).symm hf grounded_parts b
  exact (getElem?_insert_ne _ _ hfixed.latest.symm).trans hfixed.cell

theorem loop_damaged (hf : Free base (size parts)) : Loop (quitAddress base) (damaged base).memory := by
  refine ⟨_, _, ?_, builtin_damaged hf .interpret, builtin_damaged hf .branch⟩
  have hcells := (keeps_cons.mp (keeps_parts hf grounded_parts.1)).2
  intro i hi
  have hfixed := hcells i _ (List.getElem?_eq_getElem hi)
  rw [List.getElem?_eq_getElem hi, ← hfixed.cell]
  exact getElem?_insert_ne _ _ hfixed.latest.symm

theorem leads_damaged (hf : Free base (size parts)) :
    Leads (Awaits (idle base parts) ["WORD", "X", "LATEST", "!"] output)
      (Awaits (damaged base) [] output) := by
  have hequipped : (site base parts "").Equipped (builtinField base) (size []) :=
    equipped_site (List.append_nil parts).symm hf grounded_parts
  refine leads_store_latest hequipped.loop_memory (loop_damaged hf) (fun S b => ?_)
    fun b => (hequipped.builtin b).cell
  have hfind : (running (placed base parts).memory (placed base parts).dictionary (quitAddress base)
      [] S).dictionary.find? b.name = some (visible base (ofBuiltin b)) :=
    find?_builtin base b
  have hmeaning := meaning_of_find? hfind (.inr (isCompiling_of_zero (sound_parts hf).state))
  exact hmeaning

/-- No definition can be built any more. -/
theorem fails_damaged (hf : Free base (size parts)) (name : String) :
    Fails (Awaits (damaged base) (":" :: name :: ws) output) .invalidAddress ":"
      (Awaits (damaged base) ws output) := by
  have hhere : (damaged base).memory[hereAddress]? = some (.addr (base.plus (size parts))) :=
    (getElem?_insert_ne _ _ (by decide)).trans (here_parts hf)
  have hlink : (damaged base).latestLink =
      .error { kind := .invalidAddress, address := latestAddress } :=
    latestLink_text (getElem?_insert_eq _ _ _)
  have hfind : (damaged base).dictionary.find? ":" = some (visible base (ofBuiltin .colon)) :=
    find?_builtin base .colon
  have hmeaning := meaning_of_find? hfind (.inr (isCompiling_damaged hf))
  exact fails_handOver (b := .colon) (loop_damaged hf) hmeaning (builtin_damaged hf .colon)
    (raises_colon hhere rfl hlink rfl)

/-- No evaluation of a definition is finished in the damaged image. -/
theorem evaluate_damaged_ne_finished (hf : Free base (size parts)) {m : Machine} {cs : List Char}
    {name : String} (hm : m.state = damaged base) (hc : Source.words cs = ":" :: name :: ws) (n : Nat) :
    ((image base).evaluate n { rest := cs } m).1 ≠ .finished := by
  intro hn
  have hfails : Fails (Awaits (running m.state.memory m.state.dictionary (image base).quit
      m.state.returns m.state.stack) (Source.words cs) none) .invalidAddress ":"
      (Awaits (damaged base) ws none) := by
    rw [hm, hc]
    exact fails_damaged hf name
  obtain ⟨j, t, m', htrap, -⟩ := evaluate_of_fails (image base) m (by simp) (by decide) hfails
  have hfinished : (image base).evaluate n { rest := cs } m = (.finished, _) := Prod.ext hn rfl
  -- an evaluation that is finished stays so, and with more steps it would end in the trap
  have hmore := evaluate_mono _ m hfinished (by decide) (Nat.le_max_left n j)
  rw [htrap _ (Nat.le_max_right n j)] at hmore
  cases hmore

theorem reaches_damaged :
    ∃ fuel installed m,
      install fuel 16 {} = (.ok ⟨16, 228⟩, installed) ∧
      (⟨16, 228⟩ : Image).evaluate fuel { rest := "WORD X LATEST !".toList } installed =
        (.finished, m) ∧
      installed.state = idle defaultBase parts ∧ m.state = damaged defaultBase := by
  have hbase : isValidBase defaultBase = true := by decide
  have hf : Free defaultBase (size parts) := (free_default (Nat.zero_le _)).mono (by omega)
  obtain ⟨n, installed, hinstall, hstate, -⟩ := install_apply hbase {}
  rw [← image, image_default] at hinstall
  have hdamage : Leads (Awaits (running installed.state.memory installed.state.dictionary
      (image defaultBase).quit installed.state.returns installed.state.stack)
      (Source.words "WORD X LATEST !".toList) none) (Awaits (damaged defaultBase) [] none) := by
    rw [hstate, show Source.words "WORD X LATEST !".toList = ["WORD", "X", "LATEST", "!"] by
      decide +kernel]
    exact leads_damaged hf
  obtain ⟨k, m, heval, hm, -⟩ := evaluate_of_leads (image defaultBase) installed
    (loop_damaged hf) (by simp) hdamage
  rw [image_default] at heval
  exact ⟨max n k, installed, m, hinstall _ (Nat.le_max_left n k), heval _ (Nat.le_max_right n k),
    hstate, hm⟩

/-- A state that is reached from an installed image and in which the compiler has been left alone, but
in which no definition can be built: the variable LATEST holds a text. -/
theorem damaged_chain_stops_definition :
    ∃ fuel installed m,
      install fuel 16 {} = (.ok ⟨16, 228⟩, installed) ∧
      (⟨16, 228⟩ : Image).evaluate fuel { rest := "WORD X LATEST !".toList } installed =
        (.finished, m) ∧
      (⟨16, 228⟩ : Image).Keeps compiler installed.state m.state ∧
      m.state.isCompiling = false ∧
      (⟨16, 228⟩ : Image).Room compiler installed.state m.state 427 5 ∧
      Source.words ": N ;".toList = ":" :: "N" :: (Body.empty.spelling ++ [";"]) ∧
      Body.empty.resolve? m.state.dictionary = some .empty ∧
      ∀ n, ((⟨16, 228⟩ : Image).evaluate n { rest := ": N ;".toList } m).1 ≠ .finished := by
  have hf : Free defaultBase (size parts) := (free_default (Nat.zero_le _)).mono (by omega)
  have hwords : Source.words ": N ;".toList = ":" :: "N" :: (Body.empty.spelling ++ [";"]) := by
    decide +kernel
  obtain ⟨fuel, installed, m, hinstall, heval, hstate, hm⟩ := reaches_damaged
  refine ⟨fuel, installed, m, hinstall, heval, ?_, ?_, ?_, hwords, rfl, ?_⟩
  · rw [hstate, hm, ← image_default]
    exact keeps_damaged hf
  · rw [hm]
    exact isCompiling_damaged hf
  · rw [hstate, hm, ← image_default, ← end_default]
    exact room_damaged (free_default (by decide)) (bound_default (by decide))
  · rw [← image_default]
    exact evaluate_damaged_ne_finished hf hm hwords

end Damage

end Image

end ForthMachine
