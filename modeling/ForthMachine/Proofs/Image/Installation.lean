import ForthMachine.Proofs.Image.Blueprint

namespace ForthMachine

open Memory State Machine

namespace Blueprint

structure Sound (base : Word) (q : Placement) : Prop where
  here : q.memory[hereAddress]? = some (.addr (base.plus q.used))
  latest : q.memory[latestAddress]? = some q.link
  state : q.memory[stateAddress]? = some (.int 0)
  link : q.link = .nil ∨ ∃ a, q.link = .addr a

/-- Before the first part the system variables are as they should be. -/
theorem sound_start (base : Word) : Sound base (start base) := by
  have hused : (start base).used = 0 := rfl
  refine ⟨?_, ?_, ?_, .inl rfl⟩
  · rw [start, getElem?_insert_ne _ _ (by decide), getElem?_insert_ne _ _ (by decide),
      getElem?_insert_eq, Word.plus_zero]
  · rw [start, getElem?_insert_ne _ _ (by decide), getElem?_insert_eq]
  · rw [start, getElem?_insert_eq]

/-- A part leaves the system variables as they should be. -/
theorem Sound.add {base : Word} {q : Placement} (h : Sound base q) {p : Part}
    (hf : Free (base.plus q.used) p.size) : Sound base (Blueprint.add base q p) := by
  rw [size_eq (field base)] at hf
  refine ⟨?_, enter_latest hf, ?_, .inr ⟨_, rfl⟩⟩
  · rw [used_add, size_eq (field base), ← Word.plus_plus]
    exact enter_here
  · exact (enter_state hf).trans h.state

theorem Sound.foldl {base : Word} {ps : List Part} {q : Placement} (h : Sound base q)
    (hf : Free (base.plus q.used) (size ps)) : Sound base (ps.foldl (Blueprint.add base) q) := by
  induction ps generalizing q with
  | nil => exact h
  | cons p ps ih =>
    rw [size_cons] at hf
    apply ih (h.add (hf.mono (by omega)))
    rw [used_add, ← Word.plus_plus]
    exact hf.drop

theorem sound_placed {base : Word} {as bs : List Part} (h : parts = as ++ bs)
    (hf : Free base (size parts)) : Sound base (placed base as) := by
  rw [placed]
  apply (sound_start base).foldl
  rw [h, size_append] at hf
  have hused : base.plus (start base).used = base := Word.plus_zero base
  rw [hused]
  exact hf.mono (by omega)

theorem Sound.latestLink {base : Word} {q : Placement} (h : Sound base q) {st : State}
    (hm : st.memory = q.memory) : st.latestLink = .ok q.link := by
  rw [State.latestLink, hm, h.latest]
  rcases h.link with hl | ⟨a, hl⟩
  · rw [hl]
  · rw [hl]
    rfl

def quitAddress (base : Word) : Word := (field base "QUIT").plus 1

def idle (base : Word) (ps : List Part) : State :=
  running (placed base ps).memory (placed base ps).dictionary (quitAddress base) [] []

def site (base : Word) (ps : List Part) (name : String) : Site where
  memory := (placed base ps).memory
  dictionary := (placed base ps).dictionary
  quit := quitAddress base
  returns := []
  start := base.plus (size ps)
  link := (placed base ps).link
  name := name

def builtinField (base : Word) (b : Builtin) : Word := field base b.name

section Ready

variable {base : Word} {as bs : List Part} {name : String}

def Grounded (ps : List Part) : Prop := quit ∈ ps ∧ ∀ b, ofBuiltin b ∈ ps

/-- A built-in word that has been placed stays where it is while the other parts are added. -/
theorem fixed_builtin (h : parts = as ++ bs) (hf : Free base (size parts)) (hg : Grounded as)
    (b : Builtin) : Fixed (placed base as).memory (base.plus (size as)) (size bs)
      (builtinField base b) (.builtin b) :=
  keeps_singleton.mp (keeps_placed h hf (hg.2 b))

/-- A part is defined where there is room for it and the built-in words are out of the way. -/
theorem equipped_site (h : parts = as ++ bs) (hf : Free base (size parts)) (hg : Grounded as) :
    (site base as name).Equipped (builtinField base) (size bs) where
  free := free_placed h hf
  loop := (keeps_cons.mp (keeps_placed h hf hg.1)).2
  interpret := fixed_builtin h hf hg .interpret
  branch := fixed_builtin h hf hg .branch
  builtin := fixed_builtin h hf hg

theorem hasWord_site (h : parts = as ++ bs) (hf : Free base (size parts)) (hg : Grounded as)
    (b : Builtin) : (site base as name).HasWord (size bs) b :=
  ⟨visible base (ofBuiltin b), find?_placed h (hg.2 b), rfl, fixed_builtin h hf hg b⟩

theorem opens_site (h : parts = as ++ bs) (hf : Free base (size parts)) :
    (site base as name).Opens := by
  have hs : Sound base (placed base as) := sound_placed h hf
  refine ⟨⟨_, hs.here, ?_⟩, hs.latestLink rfl, isCompiling_of_zero hs.state⟩
  rw [used_placed]
  rfl

/-- The control words are parts with the code that compiling relies on. -/
theorem part_of_control (base : Word) (k : Control) : ∃ p ∈ controls, p.name = k.name ∧
    p.immediate = true ∧ (∃ items, p.content = .definition items) ∧ p.cells (field base) =
      .builtin .docol :: (k.code (builtinField base) ++ [.builtin .exit]) := by
  cases k
  · exact ⟨controls[0], by decide, rfl, rfl, ⟨_, rfl⟩, rfl⟩
  · exact ⟨controls[1], by decide, rfl, rfl, ⟨_, rfl⟩, rfl⟩
  · exact ⟨controls[2], by decide, rfl, rfl, ⟨_, rfl⟩, rfl⟩
  · exact ⟨controls[3], by decide, rfl, rfl, ⟨_, rfl⟩, rfl⟩
  · exact ⟨controls[4], by decide, rfl, rfl, ⟨_, rfl⟩, rfl⟩
  · exact ⟨controls[5], by decide, rfl, rfl, ⟨_, rfl⟩, rfl⟩

theorem hasControls_site (h : parts = as ++ bs) (hf : Free base (size parts)) (hg : Grounded as)
    (hc : ∀ p ∈ controls, p ∈ as) :
    (site base as name).HasControls (builtinField base) (size bs) := by
  refine ⟨equipped_site h hf hg, fun k => ?_⟩
  obtain ⟨p, hp, hname, himm, -, hcells⟩ := part_of_control base k
  have hk := keeps_placed h hf (hc p hp)
  rw [hcells] at hk
  refine ⟨visible base p, ?_, himm, hk⟩
  rw [← hname]
  exact find?_placed h (hc p hp)

end Ready

def isUsable (ps : List Part) : Body String String → Bool
  | .empty => true
  | .seq first second => isUsable ps first && isUsable ps second
  | .literal token => (Numeral.decimal? token.toList).isSome && !(ps.map Part.name).contains token
  | .word name => ps.any fun p => p.name = name && !p.immediate
  | .ifThen yes => isUsable ps yes
  | .ifElse yes no => isUsable ps yes && isUsable ps no
  | .beginUntil body => isUsable ps body
  | .beginAgain body => isUsable ps body

def Item.isUsable (ps : List Part) : Item → Bool
  | .quote name => (ps.map Part.name).contains name
  | .body b => Blueprint.isUsable ps b && (b.isFlat || controls.all (ps.contains ·))

def isOrdered : List Part → List Part → Bool
  | _, [] => true
  | ps, p :: rest =>
    (match p.content with
      | .definition items => items.all (Item.isUsable ps)
      | _ => false) && isOrdered (ps ++ [p]) rest

section Core

variable {base : Word} {as bs : List Part} {name : String}

/-- The names in a body that uses only earlier parts have the addresses of the blueprint. -/
theorem resolve?_placed (h : parts = as ++ bs) {b : Body String String} (hu : isUsable as b = true) :
    b.resolve? (placed base as).dictionary = some (b.locate (field base)) := by
  induction b with
  | empty => rfl
  | seq first second ihf ihs =>
    rw [isUsable, Bool.and_eq_true] at hu
    simp [Body.resolve?, Body.locate, ihf hu.1, ihs hu.2]
  | literal token =>
    rw [isUsable, Bool.and_eq_true] at hu
    obtain ⟨k, hk⟩ := Option.isSome_iff_exists.mp hu.1
    have hnone : (placed base as).dictionary.find? token = none :=
      find?_placed_none (by simpa using hu.2)
    simp [Body.resolve?, Body.locate, hnone, hk]
  | word name =>
    rw [isUsable, List.any_eq_true] at hu
    obtain ⟨p, hp, hname⟩ := hu
    simp only [Bool.and_eq_true, decide_eq_true_eq, Bool.not_eq_true'] at hname
    obtain ⟨rfl, himm⟩ := hname
    simp [Body.resolve?, Body.locate, find?_placed h hp, visible, himm]
  | ifThen yes ih =>
    simp [Body.resolve?, Body.locate, ih hu]
  | ifElse yes no ihy ihn =>
    rw [isUsable, Bool.and_eq_true] at hu
    simp [Body.resolve?, Body.locate, ihy hu.1, ihn hu.2]
  | beginUntil body ih =>
    simp [Body.resolve?, Body.locate, ih hu]
  | beginAgain body ih =>
    simp [Body.resolve?, Body.locate, ih hu]

/-- The words that spell an item compile as the cells of the item. -/
theorem compiles_item (h : parts = as ++ bs) (hf : Free base (size parts)) (hg : Grounded as)
    {item : Item} (hu : item.isUsable as = true) :
    (site base as name).Compiles (size bs) item.spelling (item.code (field base)) := by
  have hr : (site base as name).Ready (builtinField base) (size bs) :=
    (equipped_site h hf hg).toReady
  cases item with
  | quote target =>
    rw [Item.isUsable, List.contains_iff_mem, List.mem_map] at hu
    obtain ⟨p, hp, rfl⟩ := hu
    have hfind : (site base as name).dictionary.find? p.name = some (visible base p) :=
      find?_placed h hp
    have hword : ∀ b, (site base as name).HasWord (size bs) b := hasWord_site h hf hg
    have hquote := Site.compiles_quote hr hfind (hword .leftBracket) (hword .tick)
      (hword .rightBracket) (hword .literal)
    exact hquote
  | body b =>
    rw [Item.isUsable, Bool.and_eq_true] at hu
    obtain ⟨hbody, hcontrols⟩ := hu
    have hresolve : b.resolve? (site base as name).dictionary = some (b.locate (field base)) :=
      resolve?_placed h hbody
    refine Site.compiles_body hr (fun hflat => hasControls_site h hf hg ?_) hresolve
    intro p hp
    rw [hflat, Bool.false_or, List.all_eq_true] at hcontrols
    simpa using hcontrols p hp

theorem compiles_items (h : parts = as ++ bs) (hf : Free base (size parts)) (hg : Grounded as)
    {items : List Item} (hu : items.all (Item.isUsable as) = true) :
    (site base as name).Compiles (size bs) (items.flatMap Item.spelling)
      (items.flatMap (Item.code (field base))) := by
  induction items with
  | nil => exact Site.compiles_nil
  | cons item items ih =>
    rw [List.all_cons, Bool.and_eq_true] at hu
    rw [List.flatMap_cons, List.flatMap_cons]
    exact (compiles_item h hf hg hu.1).append (ih hu.2)

/-- When its last cell has been compiled, a part lies where the blueprint has it. -/
theorem built_eq_idle {p : Part} (h : parts = as ++ p :: bs) (hf : Free base (size parts)) :
    (site base as p.name).built { immediate := p.immediate } 0 (p.cells (field base)) [] =
      idle base (as ++ [p]) := by
  have hs := sound_placed h hf
  have hused := used_placed base as
  have hmem : (placed base as).memory.insert stateAddress (.int 0) = (placed base as).memory :=
    insert_eq_self _ hs.state
  rw [idle, placed_concat, add, hused]
  simp only [Site.built, Site.memoryWith, site, Site.entry, hmem, entry, Word.plus_plus]

theorem leads_part {p : Part} {items : List Item} {ts : List String} {output : Option Sink}
    (h : parts = as ++ p :: bs) (hf : Free base (size parts)) (hg : Grounded as)
    (hp : p.content = .definition items) (hu : items.all (Item.isUsable as) = true) :
    Leads (Awaits (idle base as) (p.spelling ++ ts) output)
      (Awaits (idle base (as ++ [p])) ts output) := by
  have hr : (site base as p.name).Ready (builtinField base) (size (p :: bs)) :=
    (equipped_site h hf hg).toReady
  have hword : ∀ b, (site base as p.name).HasWord (size (p :: bs)) b := hasWord_site h hf hg
  have hcells : p.cells (field base) =
      .builtin .docol :: (items.flatMap (Item.code (field base)) ++ [.builtin .exit]) := by
    rw [Part.cells, hp]
  have hroom : 3 + (p.cells (field base)).length ≤ size (p :: bs) := by
    rw [size_cons, size_eq (field base)]
    omega
  have hlen : (p.cells (field base)).length = (items.flatMap (Item.code (field base))).length + 2 := by
    simp [hcells]
  have hdefine (ts : List String) : Leads (Awaits (idle base as)
      (":" :: p.name :: (items.flatMap Item.spelling ++ ";" :: ts)) output)
      (Awaits ((site base as p.name).built {} 0 (p.cells (field base)) []) ts output) := by
    rw [hcells]
    exact Site.leads_definition hr (opens_site h hf) (hword .colon) (hword .semicolon)
      (compiles_items h hf hg hu) (by omega)
  rw [← built_eq_idle h hf, Part.spelling, hp]
  cases himm : p.immediate with
  | false =>
    have hall := hdefine ts
    simpa using hall
  | true =>
    have hne : p.name ≠ "IMMEDIATE" := by
      intro he
      apply notMem_of_split h
      rw [he]
      exact List.mem_map_of_mem (hg.2 .immediate)
    have hall := (hdefine ("IMMEDIATE" :: ts)).trans
      (Site.leads_immediate hr hroom (hword .immediate) hne)
    simpa using hall

/-- Each part is defined by its spelling, with the parts in front of it in place. -/
theorem leads_parts {as bs : List Part} {output : Option Sink} (h : parts = as ++ bs)
    (hf : Free base (size parts)) (hg : Grounded as) (ho : isOrdered as bs = true) :
    Leads (Awaits (idle base as) (bs.flatMap Part.spelling) output)
      (Awaits (idle base parts) [] output) := by
  induction bs generalizing as with
  | nil =>
    rw [List.append_nil] at h
    rw [h]
    exact Leads.refl _
  | cons p bs ih =>
    -- each part rests on those in front of it only, so these are in place when it is compiled
    rw [isOrdered, Bool.and_eq_true] at ho
    obtain ⟨hp, hrest⟩ := ho
    split at hp
    · next items hitems =>
      rw [List.flatMap_cons]
      refine (leads_part h hf hg hitems hp).trans (ih ?_ ?_ hrest)
      · rw [h, List.append_assoc, List.singleton_append]
      · exact ⟨List.mem_append_left _ hg.1, fun b => List.mem_append_left _ (hg.2 b)⟩
    · cases hp

def ground : List Part := Builtin.all.map ofBuiltin ++ [quit]

theorem parts_eq_ground : parts = ground ++ core := by
  rw [ground, List.append_assoc, List.singleton_append, parts]

theorem grounded_ground : Grounded ground := by
  refine ⟨by decide, fun b => ?_⟩
  cases b <;> decide

theorem grounded_parts : Grounded parts := by
  rw [parts_eq_ground]
  exact ⟨List.mem_append_left _ grounded_ground.1,
    fun b => List.mem_append_left _ (grounded_ground.2 b)⟩

theorem isOrdered_core : isOrdered ground core = true := by
  decide +kernel

/-- The core text adds all parts that are defined in source text. -/
theorem leads_core (hf : Free base (size parts)) {output : Option Sink} :
    Leads (Awaits (idle base ground) (Source.words Image.core.toList) output)
      (Awaits (idle base parts) [] output) := by
  rw [words_core]
  exact leads_parts parts_eq_ground hf grounded_ground isOrdered_core

end Core

def fresh (memory : Memory) (dictionary : Dictionary) : State := { memory, dictionary }

def Placement.state (q : Placement) : State := fresh q.memory q.dictionary

section Install

variable {base : Word}

theorem define_placed {q : Placement} (hs : Sound base q) (hf : Free (base.plus q.used) 3)
    (name : String) :
    define name q.state = .ok q.dictionary.size
      (fresh (q.memory.enter (base.plus q.used) q.link name [])
        (q.dictionary.insert { name, code := base.plus (q.used + 3) })) := by
  rw [← Word.plus_plus]
  exact define_apply hs.here rfl (hs.latestLink rfl) hf

theorem comma_placed {q : Placement} {D : Dictionary} {name : String} {c : Cell}
    (hf : Free (base.plus q.used) 4) :
    comma c (fresh (q.memory.enter (base.plus q.used) q.link name []) D) =
      .ok () (fresh (q.memory.enter (base.plus q.used) q.link name ([] ++ [c])) D) :=
  comma_apply c rfl hf

theorem installBuiltin_apply {q : Placement} (b : Builtin) (hs : Sound base q)
    (hf : Free (base.plus q.used) (ofBuiltin b).size) :
    Image.installBuiltin b q.state = .ok () (add base q (ofBuiltin b)).state := by
  have hfour : Free (base.plus q.used) 4 := hf
  simp only [Image.installBuiltin, Action.bind_apply, define_placed hs (hfour.mono (by decide)),
    comma_placed hfour, modifyFlags_apply]
  simp only [fresh, Dictionary.modifyFlags_insert]
  rfl

/-- The built-in words come to lie where the blueprint has them. -/
theorem installBuiltins_apply (hf : Free base (size parts)) :
    Image.installBuiltins base {} = .ok () (placed base (Builtin.all.map ofBuiltin)).state := by
  have hloop : ∀ (bs : List Builtin) (q : Placement), Sound base q →
      Free (base.plus q.used) (size (bs.map ofBuiltin)) →
      (forIn bs PUnit.unit fun b _ => do Image.installBuiltin b; pure (.yield PUnit.unit) :
        Action State PUnit) q.state = .ok .unit ((bs.map ofBuiltin).foldl (add base) q).state := by
    intro bs
    induction bs with
    | nil => exact fun _ _ _ => rfl
    | cons b bs ih =>
      intro q hs hq
      rw [List.map_cons, size_cons] at hq
      have hb := installBuiltin_apply b hs (hq.mono (by omega))
      have hrest := ih (add base q (ofBuiltin b)) (hs.add (hq.mono (by omega)))
        (by rw [used_add, ← Word.plus_plus]; exact hq.drop)
      simp only [List.forIn_cons, Action.bind_apply, hb, Action.pure_apply, List.map_cons,
        List.foldl_cons]
      exact hrest
  have hfree : Free (base.plus (start base).used) (size (Builtin.all.map ofBuiltin)) := by
    have hused : base.plus (start base).used = base := Word.plus_zero base
    rw [hused]
    rw [parts, size_append] at hf
    exact hf.mono (by omega)
  have hall := hloop Builtin.all (start base) (sound_start base) hfree
  have hstart : (start base).state = { memory := (start base).memory } := rfl
  rw [hstart] at hall
  simp only [Image.installBuiltins, Action.bind_apply, store_apply]
  rw [start] at hall
  rw [hall, placed]
  rfl

open Listing in
/-- The listing of the outer interpreter, line by line. -/
theorem tokens_outerInterpreter : (Text.lines Image.outerInterpreter.toList).map tokens =
    [[], [], [".L", "quit"], ["INTERPRET"], ["BRANCH", "quit"], []] := by
  decide +kernel

open Listing in
/-- The listing of the outer interpreter assembles to the cells of its part. -/
theorem assemble_outerInterpreter {D : Dictionary} {i b : Entry} (a : Word)
    (hi : D.find? "INTERPRET" = some i) (hb : D.find? "BRANCH" = some b) :
    assemble Image.outerInterpreter D a = .ok
      { base := a, cells := [.ref i.code, .ref b.code, .int (-2)],
        labels := Std.ExtTreeMap.insert ∅ "quit" a } := by
  have hlabel : Directive.ofToken? ".L" = some .label := by decide
  have hinterpret : Directive.ofToken? "INTERPRET" = none := by decide
  have hbranch : Directive.ofToken? "BRANCH" = some (.branch .branch) := by decide
  have hword : Numeral.prefixed? ['I', 'N', 'T', 'E', 'R', 'P', 'R', 'E', 'T'] = none := by
    decide +kernel
  have hquit : Numeral.prefixed? ['q', 'u', 'i', 't'] = none := by decide +kernel
  have hb' : D.find? Builtin.branch.name = some b := hb
  have hbase : a + 1 + 1 + 1 - 3 = a := by grind
  have hback : a - a.plus 2 = -2 := by simpa using Word.plus_sub_plus_add a 0 2
  -- every token is classified by the facts above, so that the assembler runs by rewriting
  rw [assemble, tokens_outerInterpreter]
  simp [Assembly.lines, Assembly.line, hlabel, hinterpret, hbranch, Assembly.directive,
    Assembly.define, Assembly.single, hword, Assembly.word, vocabulary, hi, hb', Except.map,
    Assembly.push, Assembly.await, Assembly.target, hquit, Except.bind, Assembly.finish,
    Assembly.resolved, Assembly.base, Gap.missing?, Gap.fill, hbase, hback]

/-- The outer interpreter starts behind the header and DOCOL of its part. -/
theorem quitAddress_eq_used (base : Word) :
    quitAddress base = (base.plus (placed base (Builtin.all.map ofBuiltin)).used).plus 4 := by
  have hfield : field base "QUIT" = base.plus (size (Builtin.all.map ofBuiltin) + 3) :=
    field_of_split (p := quit) rfl
  rw [quitAddress, used_placed, hfield, Word.plus_plus, Word.plus_plus]

/-- The cells of the listing, loaded behind DOCOL, complete the part of the outer interpreter. -/
theorem memory_add_quit {q : Placement} (hf : Free (base.plus q.used) 7) :
    (q.memory.enter (base.plus q.used) q.link "QUIT" [.builtin .docol]).append
      ((base.plus q.used).plus 4) [.ref (field base "INTERPRET"), .ref (field base "BRANCH"),
        .int (-2)] = (add base q quit).memory := by
  have hcells : quit.cells (field base) = [.builtin .docol] ++ [.ref (field base "INTERPRET"),
      .ref (field base "BRANCH"), .int (-2)] := rfl
  rw [add, hcells]
  exact enter_append hf.here

/-- The outer interpreter comes to lie behind the built-in words. -/
theorem installQuit_apply (hf : Free base (size parts)) (console : Console) :
    Image.installQuit { state := (placed base (Builtin.all.map ofBuiltin)).state, console } =
      (.ok (quitAddress base), { state := idle base ground, console }) := by
  obtain ⟨q, hq⟩ : ∃ q, q = placed base (Builtin.all.map ofBuiltin) := ⟨_, rfl⟩
  have hsplit : parts = Builtin.all.map ofBuiltin ++ quit :: core := rfl
  have hs : Sound base q := hq ▸ sound_placed hsplit hf
  have hfree : Free (base.plus q.used) 7 := by
    have hroom := free_placed hsplit hf
    rw [hq, used_placed]
    exact hroom.mono (by decide)
  have hground : placed base ground = add base q quit := by
    rw [hq, ← placed_concat, ground]
  have hD : (placed base ground).dictionary =
      q.dictionary.insert { name := "QUIT", code := base.plus (q.used + 3) } := by
    rw [hground]
    rfl
  have hfind (b : Builtin) : (placed base ground).dictionary.find? b.name =
      some (visible base (ofBuiltin b)) :=
    find?_placed (p := ofBuiltin b) parts_eq_ground (grounded_ground.2 b)
  have hquit : quitAddress base = (base.plus q.used).plus 4 := by
    rw [quitAddress_eq_used, hq]
  have hmemory : (q.memory.enter (base.plus q.used) q.link "QUIT" [.builtin .docol]).append
      (quitAddress base) [.ref (field base "INTERPRET"), .ref (field base "BRANCH"), .int (-2)] =
      (placed base ground).memory := by
    rw [hquit, hground]
    exact memory_add_quit hfree
  have hhere : fetchAddress hereAddress (fresh (q.memory.enter (base.plus q.used) q.link "QUIT"
      [.builtin .docol]) (placed base ground).dictionary) = .ok (quitAddress base)
      (fresh (q.memory.enter (base.plus q.used) q.link "QUIT" [.builtin .docol])
        (placed base ground).dictionary) := by
    rw [hquit]
    exact fetchAddress_of_getElem? enter_here rfl
  -- resetting writes the mode that is there already
  have hreset : (placed base ground).memory.insert stateAddress (.int 0) =
      (placed base ground).memory :=
    insert_eq_self _ (sound_placed parts_eq_ground hf).state
  rw [← hq, Image.installQuit]
  simp only [Action.bind_apply, Action.discard_apply, define_placed hs (hfree.mono (by decide)),
    comma_placed (hfree.mono (by decide)), ← hD, List.nil_append, hhere]
  simp only [fresh, assemble_outerInterpreter _ (hfind .interpret) (hfind .branch),
    Std.ExtTreeMap.getD_insert_self, State.reset]
  have hidle : running (((q.memory.enter (base.plus q.used) q.link "QUIT" [.builtin .docol]).append
      (quitAddress base) [.ref (field base "INTERPRET"), .ref (field base "BRANCH"),
        .int (-2)]).insert stateAddress (.int 0)) (placed base ground).dictionary (quitAddress base)
      [] [] = idle base ground := by
    rw [hmemory, hreset]
    rfl
  exact congrArg (fun st => (Except.ok (quitAddress base), (⟨st, console⟩ : Machine))) hidle

/-- What is left to do when the built-in words and the outer interpreter are there: the core text is
evaluated. -/
theorem install_eq {fuel : Nat} {console : Console} (h : Image.isValidBase base = true) :
    Image.install fuel base { console } =
      match (⟨base, quitAddress base⟩ : Image).evaluate fuel { rest := Image.core.toList }
        ⟨idle base ground, console⟩ with
      | (.finished, m) => (.ok ⟨base, quitAddress base⟩, m)
      | (.trapped t, m) => (.error (.coreTrapped t), m)
      | (.cancelled, m) => (.error .coreCancelled, m) := by
  have hf : Free base (size parts) := free_of_isValidBase h (by decide)
  rewrite [Image.install, if_pos h, installBuiltins_apply hf]
  dsimp only
  rewrite [installQuit_apply hf]
  rfl

/-- Installing an image in a fresh machine: with enough steps it succeeds, the outer interpreter is
where it should be, and the machine holds the parts of the image and nothing else. Nothing is written to
the output but trace text. -/
theorem install_apply (h : Image.isValidBase base = true) (console : Console) :
    ∃ n m, (∀ fuel, n ≤ fuel → Image.install fuel base { console } =
        (.ok ⟨base, quitAddress base⟩, m)) ∧
      m.state = idle base parts ∧ m.console.input = console.input ∧
      (console.KeepsTraceApart → m.console.KeepsTraceApart ∧ m.console.output = console.output) := by
  have hf : Free base (size parts) := free_of_isValidBase h (by decide)
  have hloop : Loop (quitAddress base) (placed base parts).memory := by
    have hr : (site base parts "").Equipped (builtinField base) (size []) :=
      equipped_site (List.append_nil parts).symm hf grounded_parts
    exact hr.loop_memory
  -- the output is followed only where no trace text gets into it
  obtain ⟨output, hout, hapart⟩ : ∃ output : Option Sink,
      (∀ o, output = some o → console.KeepsTraceApart ∧ console.output = o) ∧
      (console.KeepsTraceApart → output = some console.output) := by
    by_cases ha : console.KeepsTraceApart
    · exact ⟨some console.output, fun o ho => ⟨ha, Option.some.inj ho⟩, fun _ => rfl⟩
    · exact ⟨none, by simp, fun h => absurd h ha⟩
  have hcore : Leads (Awaits (idle base ground) (Source.words Image.core.toList) output)
      (Awaits (idle base parts) [] output) := leads_core hf
  obtain ⟨n, m, heval, hstate, hinput, hend⟩ :=
    evaluate_of_leads ⟨base, quitAddress base⟩ ⟨idle base ground, console⟩ hloop hout hcore
  refine ⟨n, m, fun fuel hfuel => ?_, hstate, hinput, fun ha => hend _ (hapart ha)⟩
  rw [install_eq h, heval fuel hfuel]

/-- Every installation in a fresh machine that succeeds has this result. -/
theorem install_result {fuel : Nat} {console : Console} {img : Image} {m : Machine}
    (h : Image.install fuel base { console } = (.ok img, m)) :
    Image.isValidBase base = true ∧ img = ⟨base, quitAddress base⟩ ∧ m.state = idle base parts := by
  have hbase : Image.isValidBase base = true := by
    by_cases hb : Image.isValidBase base = true
    · exact hb
    · rw [Image.install, if_neg hb] at h
      cases h
  obtain ⟨n, m', hinstall, hstate, -⟩ := install_apply hbase console
  have hmore := hinstall (max n fuel) (Nat.le_max_left n fuel)
  rw [install_eq hbase] at h hmore
  cases he : (⟨base, quitAddress base⟩ : Image).evaluate fuel { rest := Image.core.toList }
      ⟨idle base ground, console⟩ with
  | mk outcome m₁ =>
    rw [he] at h
    cases outcome with
    | finished =>
      rw [evaluate_mono _ _ he (by decide) (Nat.le_max_right n fuel)] at hmore
      cases hmore
      cases h
      exact ⟨hbase, rfl, hstate⟩
    | cancelled => cases h
    | trapped t => cases h

end Install

end Blueprint

end ForthMachine
