import ForthMachine.Proofs.Image.Compilation
import ForthMachine.Proofs.Image.Consistency

namespace ForthMachine

open Memory State Machine Blueprint

namespace Dictionary

/-- A word is compiled, not run, when it is a visible name that is not immediate, or a number that is no
visible name. -/
def isCompiled (D : Dictionary) (w : String) : Bool :=
  match D.find? w with
  | some e => !e.flags.immediate
  | none => (Numeral.decimal? w.toList).isSome

def cellsOf (D : Dictionary) (w : String) : List Cell :=
  match D.find? w with
  | some e => [.ref e.code]
  | none => [.builtin .lit, .int ((Numeral.decimal? w.toList).getD 0)]

def codeOf (D : Dictionary) (ws : List String) : List Cell := ws.flatMap D.cellsOf

section Congr

variable {D D' : Dictionary} (h : ∀ w, D'.find? w = D.find? w)

include h

theorem isCompiled_congr (w : String) : D'.isCompiled w = D.isCompiled w := by
  rw [isCompiled, h, isCompiled]

/-- What a word compiles to depends on the dictionary through lookups by name alone. -/
theorem codeOf_congr (ws : List String) : D'.codeOf ws = D.codeOf ws := by
  have hcells : D'.cellsOf = D.cellsOf := by
    funext w
    rw [cellsOf, h, cellsOf]
  rw [codeOf, hcells, codeOf]

end Congr

end Dictionary

/-- Words that are compiled add their cells to a definition, one word after another. -/
theorem Site.compiles_words {s : Site} {fields : Builtin → Word} {n : Nat} {ws : List String}
    (hr : s.Ready fields n) (hw : ∀ w ∈ ws, s.dictionary.isCompiled w = true) :
    s.Compiles n ws (s.dictionary.codeOf ws) := by
  induction ws with
  | nil => exact compiles_nil
  | cons w ws ih =>
    have hfirst : s.Compiles n [w] (s.dictionary.cellsOf w) := by
      have hcompiled := hw w (by simp)
      rw [Dictionary.isCompiled] at hcompiled
      rw [Dictionary.cellsOf]
      cases hf : s.dictionary.find? w with
      | some e =>
        rw [hf] at hcompiled
        exact compiles_word hr hf (by simpa using hcompiled)
      | none =>
        rw [hf] at hcompiled
        obtain ⟨k, hk⟩ := Option.isSome_iff_exists.mp hcompiled
        rw [hk]
        exact compiles_literal hr hf hk
    exact hfirst.append (ih fun v hv => hw v (by simp [hv]))

namespace Image

/-- What builds a definition without branches: the colon, the semicolon, and the outer interpreter. -/
def defining : Usage where
  words := [":", ";"]
  builtins := [.interpret, .branch, .colon, .semicolon]

/-- What is left of a definition that was given up, after a reset. Its header at `h` is the newest one, but
it is hidden, so no name stands for anything else than before. -/
structure Abandoned (name : String) (h quit : Word) (st st' : State) : Prop where
  stack : st'.stack = []
  returns : st'.returns = []
  mode : st'.memory[stateAddress]? = some (.int 0)
  ip : st'.ip = quit
  names : ∀ w, st'.dictionary.find? w = st.dictionary.find? w
  cells : ∀ a : Word, 3 ≤ a → a < h → st'.memory[a]? = st.memory[a]?
  chain : st'.chain = ({ name, code := h.plus 3, flags := { hidden := true } } :: st.chain.1, none)

section Building

variable {base h : Word} {m : Machine} {st : State} {n : Nat} {link : Cell} {name x : String}
  {tokens more : List String} {cs : List Char} {cells : List Cell} {headers : List Header} {u : Usage}

theorem outside_of_lt {a : Word} (ha : a < h) (hn : h.toInt + n ≤ Word.bound) : Outside h n a := by
  intro i hi heq
  have hint := Word.toInt_plus (a := h) (n := i) (by omega)
  have hlt := Int64.lt_iff_toInt_lt.mp ha
  rw [heq] at hint
  omega

def leftover (base : Word) (st : State) (h : Word) (link : Cell) (name : String) (cells : List Cell) :
    State :=
  (siteOf base { st with returns := [] } h link name).built { hidden := true } 0 cells []

/-- The hidden draft does not change what a name stands for. -/
theorem find?_leftover (w : String) :
    (leftover base st h link name cells).dictionary.find? w = st.dictionary.find? w :=
  Site.find?_hidden rfl w

theorem mode_leftover (hf : Free h (3 + cells.length)) :
    (leftover base st h link name cells).memory[stateAddress]? = some (.int 0) :=
  Site.state_memoryWith hf

/-- A reset in the middle of a definition leaves what an abandoned definition leaves. -/
theorem abandoned_leftover (hr : (image base).Room u (idle base parts) st h n)
    (ht : Threaded st.memory st.dictionary headers) (ha : Header.Apart headers h n)
    (hn : 3 + cells.length ≤ n) :
    Abandoned name h (quitAddress base) st
      (leftover base st h (Header.linkTo headers) name cells) := by
  have hfree := free_of_room hr
  refine ⟨rfl, rfl, mode_leftover (hfree.mono hn), rfl, find?_leftover, fun a hthree hlt => ?_, ?_⟩
  · have hsystem (k : Word) (hk : k.toInt < 3) : a ≠ k := by
      rintro rfl
      exact absurd (Int64.le_iff_toInt_le.mp hthree) (Int.not_le.mpr hk)
    exact Site.memoryWith_outside (hsystem _ (by decide)) (hsystem _ (by decide))
      (hsystem _ (by decide)) ((outside_of_lt hlt hr.bound).mono hn)
  · exact State.chain_of_insert ht ((ht.mode ha (.int 0)).enter ha name { hidden := true } hfree hn) rfl

/-- Words that are compiled, and then a word without a meaning: the definition stays unfinished. -/
theorem evaluate_unknown (hf : Free base (size parts))
    (hk : (image base).Keeps defining (idle base parts) m.state) (hm : m.state.isCompiling = false)
    (hl : m.state.latestLink = .ok link)
    (hr : (image base).Room defining (idle base parts) m.state h n)
    (hn : 4 + (m.state.dictionary.codeOf tokens).length ≤ n)
    (ht : ∀ w ∈ tokens, m.state.dictionary.isCompiled w = true)
    (hx : m.state.dictionary.find? x = none) (hd : Numeral.decimal? x.toList = none)
    (hw : Source.words cs = ":" :: name :: (tokens ++ x :: more)) :
    ∃ k t m', (∀ fuel, k ≤ fuel → (image base).evaluate fuel { rest := cs } m = (.trapped t, m')) ∧
      t.kind = .unresolvable ∧ t.token = x ∧
      m'.state = (siteOf base m.state h link name).draft
        (.builtin .docol :: m.state.dictionary.codeOf tokens) m.state.stack := by
  have hready : (siteOf base m.state h link name).Ready (builtinField base) n :=
    ready_of_keeps hf hk hr (by decide) (by decide)
  have hcolon : (siteOf base m.state h link name).HasWord n .colon :=
    hasWord_of_keeps hf hk hr (by decide) (by decide)
  have hopens : (siteOf base m.state h link name).Opens := ⟨hr.here, hl, hm⟩
  have hleads : Leads (Awaits (running m.state.memory m.state.dictionary (quitAddress base)
      m.state.returns m.state.stack) (Source.words cs) none)
      (Awaits ((siteOf base m.state h link name).draft
        (.builtin .docol :: m.state.dictionary.codeOf tokens) m.state.stack) (x :: more) none) := by
    rw [hw]
    exact Site.leads_unfinished hready hopens hcolon (Site.compiles_words hready ht) (by omega)
  obtain ⟨m₁, hreach, hm₁⟩ := hleads _ (awaits_enter (image base) m (by simp))
  have hfind : ((siteOf base m.state h link name).draft
      (.builtin .docol :: m.state.dictionary.codeOf tokens) m.state.stack).dictionary.find? x = none := by
    rw [Site.draft, Site.find?_hidden rfl]
    exact hx
  obtain ⟨t, m₂, hstep, hkind, htoken, hstate⟩ := step_unknown
    (hready.loop_memoryWith (by rw [List.length_cons]; omega)) hfind hd hm₁
  obtain ⟨k, heval⟩ := evaluate_of_error (image base) m hreach hstep
  rw [if_neg (by simp [hkind])] at heval
  exact ⟨k, t, _, heval, hkind, htoken, hstate⟩

/-- Words that are compiled, and then a semicolon: the definition is finished. -/
theorem evaluate_definition (hf : Free base (size parts))
    (hk : (image base).Keeps defining (idle base parts) m.state) (hm : m.state.isCompiling = false)
    (hl : m.state.latestLink = .ok link)
    (hr : (image base).Room defining (idle base parts) m.state h n)
    (hn : 5 + (m.state.dictionary.codeOf tokens).length ≤ n)
    (ht : ∀ w ∈ tokens, m.state.dictionary.isCompiled w = true)
    (hw : Source.words cs = ":" :: name :: (tokens ++ [";"])) :
    ∃ k m', (∀ fuel, k ≤ fuel → (image base).evaluate fuel { rest := cs } m = (.finished, m')) ∧
      Defines name (.builtin .docol :: (m.state.dictionary.codeOf tokens ++ [.builtin .exit])) m.state h
        m'.state := by
  have hready : (siteOf base m.state h link name).Ready (builtinField base) n :=
    ready_of_keeps hf hk hr (by decide) (by decide)
  have hcolon : (siteOf base m.state h link name).HasWord n .colon :=
    hasWord_of_keeps hf hk hr (by decide) (by decide)
  have hsemicolon : (siteOf base m.state h link name).HasWord n .semicolon :=
    hasWord_of_keeps hf hk hr (by decide) (by decide)
  have hopens : (siteOf base m.state h link name).Opens := ⟨hr.here, hl, hm⟩
  have hlen : 3 + (.builtin .docol :: (m.state.dictionary.codeOf tokens ++ [.builtin .exit]) :
      List Cell).length ≤ n := by
    simp only [List.length_cons, List.length_append, List.length_nil]
    omega
  have hleads : Leads (Awaits (running m.state.memory m.state.dictionary (quitAddress base)
      m.state.returns m.state.stack) (Source.words cs) none)
      (Awaits ((siteOf base m.state h link name).built {} 0
        (.builtin .docol :: (m.state.dictionary.codeOf tokens ++ [.builtin .exit])) m.state.stack)
        [] none) := by
    rw [hw]
    exact Site.leads_definition hready hopens hcolon hsemicolon (Site.compiles_words hready ht) (by omega)
  obtain ⟨k, m', heval, hstate, -⟩ := evaluate_of_leads (image base) m (hready.loop_memoryWith hlen)
    (by simp) hleads
  refine ⟨k, m', heval, ?_⟩
  rw [hstate]
  exact defines_built (hready.free.mono hlen)

/-- What is left of an unfinished definition does not stand in the way of the same one behind it. -/
theorem evaluate_again (hf : Free base (size parts))
    (hk : (image base).Keeps defining (idle base parts) st)
    (hr : (image base).Room defining (idle base parts) st h
      (3 + cells.length + (5 + (st.dictionary.codeOf tokens).length)))
    (hm : m.state = leftover base st h link name cells)
    (ht : ∀ w ∈ tokens, st.dictionary.isCompiled w = true)
    (hw : Source.words cs = ":" :: name :: (tokens ++ [";"])) :
    ∃ k m', (∀ fuel, k ≤ fuel → (image base).evaluate fuel { rest := cs } m = (.finished, m')) ∧
      Defines name (.builtin .docol :: (st.dictionary.codeOf tokens ++ [.builtin .exit])) m.state
        (h.plus (3 + cells.length)) m'.state := by
  have hfree : Free h (3 + cells.length) := (free_of_room hr).mono (Nat.le_add_right _ _)
  have hnames (w : String) : m.state.dictionary.find? w = st.dictionary.find? w := by
    rw [hm]
    exact find?_leftover w
  have hkeeps : (image base).Keeps defining (idle base parts) m.state := by
    rw [hm]
    exact keeps_built hf ⟨hk.names, hk.cells⟩ ⟨hr.here, hr.bound, hr.free⟩ (Nat.le_add_right _ _)
      fun w _ => find?_leftover w
  have hroom : (image base).Room defining (idle base parts) m.state (h.plus (3 + cells.length))
      (5 + (st.dictionary.codeOf tokens).length) := by
    have hreturns : (image base).Room defining (idle base parts) { st with returns := [] } h
        (3 + cells.length + (5 + (st.dictionary.codeOf tokens).length)) := ⟨hr.here, hr.bound, hr.free⟩
    rw [hm]
    exact room_built hreturns (by omega)
  have hmode : m.state.isCompiling = false := by
    rw [hm]
    exact isCompiling_of_zero (mode_leftover hfree)
  have hlink : m.state.latestLink = .ok (.addr h) := by
    rw [hm]
    exact Site.latestLink_built hfree
  rw [← Dictionary.codeOf_congr hnames] at hroom ⊢
  refine evaluate_definition hf hkeeps hmode hlink hroom (Nat.le_refl _) (fun w hmem => ?_) hw
  rw [Dictionary.isCompiled_congr hnames]
  exact ht w hmem

end Building

/-- A definition that fails leaves no trace in the names. The image was installed in a fresh machine; since
then everything may have changed but the colon, the semicolon and the outer interpreter, as long as memory
and dictionary agree. A definition of `name` is given up at a word without a meaning, which may be `name`
itself. After a reset it is hidden, and it can be written again. There has to be room for both: the cells of
the first one are not given back. -/
theorem failed_definition_leaves_no_name {fuel : Nat} {base : Word} {console : Console} {img : Image}
    {installed m : Machine} {name x : String} {tokens more : List String} {h : Word} {cs ds : List Char}
    (hi : install fuel base { console } = (.ok img, installed))
    (hk : img.Keeps defining installed.state m.state)
    (hm : m.state.isCompiling = false)
    (hr : img.Room defining installed.state m.state h
      (2 * (m.state.dictionary.codeOf tokens).length + 9))
    (ha : m.state.Agrees h (2 * (m.state.dictionary.codeOf tokens).length + 9))
    (ht : ∀ w ∈ tokens, m.state.dictionary.isCompiled w = true)
    (hx : m.state.dictionary.find? x = none) (hd : Numeral.decimal? x.toList = none)
    (hc : Source.words cs = ":" :: name :: (tokens ++ x :: more))
    (hw : Source.words ds = ":" :: name :: (tokens ++ [";"])) :
    ∃ n t m', (∀ fuel, n ≤ fuel → img.evaluate fuel { rest := cs } m = (.trapped t, m')) ∧
      t.kind = .unresolvable ∧ t.token = x ∧
      Abandoned name h img.quit m.state (m'.reset img.quit).state ∧
      ∃ k m'', (∀ fuel, k ≤ fuel →
          img.evaluate fuel { rest := ds } (m'.reset img.quit) = (.finished, m'')) ∧
        Defines name (.builtin .docol :: (m.state.dictionary.codeOf tokens ++ [.builtin .exit]))
          (m'.reset img.quit).state (h.plus (4 + (m.state.dictionary.codeOf tokens).length))
          m''.state := by
  obtain ⟨hbase, rfl, hstate⟩ := install_result hi
  have hf : Free base (size parts) := free_of_isValidBase hbase (by decide)
  obtain ⟨headers, hthreaded, hapart⟩ := ha
  rw [hstate] at hk hr
  obtain ⟨n, t, m', heval, hkind, htoken, hdraft⟩ := evaluate_unknown hf hk hm
    (State.latestLink_of_headers hthreaded.latest) hr (by omega) ht hx hd hc
  obtain ⟨cells, hcells⟩ : ∃ cells, cells = .builtin .docol :: m.state.dictionary.codeOf tokens := ⟨_, rfl⟩
  have hlen : 3 + cells.length = 4 + (m.state.dictionary.codeOf tokens).length := by
    rw [hcells, List.length_cons]
    omega
  have hsum : 2 * (m.state.dictionary.codeOf tokens).length + 9 =
      3 + cells.length + (5 + (m.state.dictionary.codeOf tokens).length) := by
    omega
  rw [← hcells] at hdraft
  rw [hsum] at hr hapart
  have hreset : (m'.reset (quitAddress base)).state =
      leftover base m.state h (Header.linkTo headers) name cells := by
    change m'.state.reset _ = _
    rw [hdraft]
    exact Site.reset_draft ((free_of_room hr).mono (Nat.le_add_right _ _))
  refine ⟨n, t, m', heval, hkind, htoken, ?_, ?_⟩
  · rw [show (m'.reset _).state = _ from hreset]
    exact abandoned_leftover hr hthreaded hapart (Nat.le_add_right _ _)
  · rw [← hlen]
    exact evaluate_again hf hk hr hreset ht hw

/-- A definition right after the installation that uses its own name, and then once more without it. -/
theorem abandoned_definition_is_written_again :
    ∃ fuel installed t m' m'',
      install fuel 16 {} = (.ok ⟨16, 228⟩, installed) ∧
      (⟨16, 228⟩ : Image).evaluate fuel { rest := ": N DUP 1 N ;".toList } installed =
        (.trapped t, m') ∧
      t.kind = .unresolvable ∧ t.token = "N" ∧
      Abandoned "N" 427 228 installed.state (m'.reset 228).state ∧
      (⟨16, 228⟩ : Image).evaluate fuel { rest := ": N DUP 1 ;".toList } (m'.reset 228) =
        (.finished, m'') ∧
      Defines "N" [.builtin .docol, .ref 23, .builtin .lit, .int 1, .builtin .exit] (m'.reset 228).state
        434 m''.state := by
  have hbase : isValidBase defaultBase = true := by decide
  have hparts : Free defaultBase (size parts) := (free_default (Nat.zero_le _)).mono (by omega)
  obtain ⟨n, installed, hinstall, hstate, -⟩ := install_apply hbase {}
  rw [← image, image_default] at hinstall
  have hnone (w : String) (hw : w ∉ parts.map Part.name) : installed.state.dictionary.find? w = none := by
    rw [hstate]
    exact find?_placed_none hw
  have hdup : installed.state.dictionary.find? "DUP" = some (visible defaultBase (ofBuiltin .dup)) := by
    rw [hstate]
    exact find?_builtin _ .dup
  have hone : installed.state.dictionary.find? "1" = none := hnone "1" (by decide +kernel)
  have hcode : installed.state.dictionary.codeOf ["DUP", "1"] = [.ref 23, .builtin .lit, .int 1] := by
    have hfield : field defaultBase "DUP" = 23 := by
      rw [field]
      decide +kernel
    simp only [Dictionary.codeOf, List.flatMap_cons, List.flatMap_nil, Dictionary.cellsOf, hdup, hone,
      visible, show (ofBuiltin .dup).name = "DUP" from rfl, hfield]
    decide +kernel
  have hcompiled (w : String) (hw : w ∈ ["DUP", "1"]) :
      installed.state.dictionary.isCompiled w = true := by
    simp only [List.mem_cons, List.not_mem_nil, or_false] at hw
    rcases hw with rfl | rfl
    · rw [Dictionary.isCompiled, hdup]
      rfl
    · rw [Dictionary.isCompiled, hone]
      decide +kernel
  have hroom : (image defaultBase).Room defining installed.state installed.state 427
      (2 * (installed.state.dictionary.codeOf ["DUP", "1"]).length + 9) := by
    rw [hcode, hstate, ← end_default]
    exact room_behind (free_default (by decide)) (bound_default (by decide)) (here_parts hparts)
  have hagrees : installed.state.Agrees 427
      (2 * (installed.state.dictionary.codeOf ["DUP", "1"]).length + 9) := by
    apply WellFormed.agrees _ hroom.here hroom.bound
    rw [hstate]
    exact wellFormed_idle hbase (by rw [end_default]; decide)
  have hmode : installed.state.isCompiling = false := by
    rw [hstate]
    exact isCompiling_of_zero (sound_parts hparts).state
  rw [image_default] at hroom
  obtain ⟨j, t, m', htrap, hkind, htoken, habandoned, k, m'', heval, hdefines⟩ :=
    failed_definition_leaves_no_name (hinstall n (Nat.le_refl n)) ⟨fun _ _ => rfl, fun _ _ => rfl⟩ hmode
      hroom hagrees hcompiled (hnone "N" (by decide +kernel)) (by decide +kernel)
      (show Source.words ": N DUP 1 N ;".toList = ":" :: "N" :: (["DUP", "1"] ++ "N" :: [";"]) by
        decide +kernel)
      (show Source.words ": N DUP 1 ;".toList = ":" :: "N" :: (["DUP", "1"] ++ [";"]) by decide +kernel)
  rw [hcode] at hdefines
  exact ⟨max n (max j k), installed, t, m', m'', hinstall _ (by omega), htrap _ (by omega), hkind, htoken,
    habandoned, heval _ (by omega), hdefines⟩

section Numbers

variable {base : Word} {n : Nat} {output : Option Sink} {ws : List String} {u : Usage} {name : String}

def marking : Usage where
  words := [":", ";", "IMMEDIATE"]
  builtins := Builtin.all

def dropping (base : Word) : List Cell :=
  [.builtin .docol, .ref (builtinField base .drop), .builtin .exit]

def numberSite (base : Word) : Site :=
  siteOf base (idle base parts) (base.plus (size parts)) (placed base parts).link "1"

def numbered (base : Word) : State :=
  (numberSite base).built { immediate := true } 0 (dropping base) []

theorem room_idle (hf : Free base (size parts + (6 + n)))
    (hb : (base.plus (size parts)).toInt + (6 + n : Nat) ≤ Word.bound) :
    (image base).Room u (idle base parts) (idle base parts) (base.plus (size parts))
      (3 + (dropping base).length + n) :=
  room_behind hf hb (here_parts (hf.mono (by omega)))

theorem find?_numbered {w : String} (hw : w ≠ "1") :
    (numbered base).dictionary.find? w = (idle base parts).dictionary.find? w := by
  change ((idle base parts).dictionary.insert _).find? w = _
  rw [Dictionary.find?_insert, if_neg]
  simp [Dictionary.isNamed, Site.entry, numberSite, siteOf, Ne.symm hw]

/-- A definition named like a number does no harm to a program that does not use its name. -/
theorem keeps_numbered (hf : Free base (size parts + (6 + n)))
    (hb : (base.plus (size parts)).toInt + (6 + n : Nat) ≤ Word.bound) (hu : "1" ∉ u.words) :
    (image base).Keeps u (idle base parts) (numbered base) :=
  keeps_built (hf.mono (by omega)) ⟨fun _ _ => rfl, fun _ _ => rfl⟩ (room_idle hf hb)
    (Nat.le_add_right _ _) fun _ hw => find?_numbered fun heq => hu (heq ▸ hw)

theorem room_numbered (hf : Free base (size parts + (6 + n)))
    (hb : (base.plus (size parts)).toInt + (6 + n : Nat) ≤ Word.bound) (hn : 0 < n) :
    (image base).Room u (idle base parts) (numbered base)
      ((base.plus (size parts)).plus (3 + (dropping base).length)) n :=
  room_built (room_idle hf hb) hn

/-- Memory and dictionary agree on the new definition as well. -/
theorem wellFormed_numbered (hf : Free base (size parts + (6 + n))) (hv : isValidBase base = true)
    (hb : (base.plus (size parts)).toInt + (6 + n : Nat) ≤ Word.bound) (hn : 0 < n)
    (hle : base.toInt ≤ (base.plus (size parts)).toInt) : (numbered base).WellFormed := by
  obtain ⟨h, headers, hw⟩ := wellFormed_idle hv hle
  have hparts : Free base (size parts) := hf.mono (by omega)
  obtain rfl := eq_of_here hw.here (here_parts hparts) rfl
  have hlink : (placed base parts).link = Header.linkTo headers :=
    Option.some.inj ((sound_parts hparts).latest.symm.trans hw.latest)
  have henter := (hw.mode (.int 0)).enter "1" (dropping base) { immediate := true } (by
    rw [show 3 + (dropping base).length = 6 from rfl]
    omega)
  rw [← hlink] at henter
  exact ⟨_, _, henter⟩

/-- The outer interpreter builds the definition. -/
theorem leads_numbered (hf : Free base (size parts + (6 + n)))
    (hb : (base.plus (size parts)).toInt + (6 + n : Nat) ≤ Word.bound) :
    Leads (Awaits (idle base parts) [":", "1", "DROP", ";", "IMMEDIATE"] output)
      (Awaits (numbered base) [] output) := by
  have hparts : Free base (size parts) := hf.mono (by omega)
  have hk : (image base).Keeps marking (idle base parts) (idle base parts) :=
    ⟨fun _ _ => rfl, fun _ _ => rfl⟩
  have hr := room_idle (u := marking) hf hb
  have hready : (numberSite base).Ready (builtinField base) (3 + (dropping base).length + n) :=
    ready_of_keeps hparts hk hr (by decide) (by decide)
  have hopens : (numberSite base).Opens :=
    ⟨hr.here, (sound_parts hparts).latestLink rfl, isCompiling_of_zero (sound_parts hparts).state⟩
  have hcolon : (numberSite base).HasWord (3 + (dropping base).length + n) .colon :=
    hasWord_of_keeps hparts hk hr (by decide) (by decide)
  have hsemicolon : (numberSite base).HasWord (3 + (dropping base).length + n) .semicolon :=
    hasWord_of_keeps hparts hk hr (by decide) (by decide)
  have himmediate : (numberSite base).HasWord (3 + (dropping base).length + n) .immediate :=
    hasWord_of_keeps hparts hk hr (by decide) (by decide)
  have hfind : (numberSite base).dictionary.find? "DROP" = some (visible base (ofBuiltin .drop)) :=
    find?_builtin base .drop
  have hdrop := Site.compiles_word hready hfind rfl
  have hdefinition : Leads (Awaits (idle base parts) [":", "1", "DROP", ";", "IMMEDIATE"] output)
      (Awaits ((numberSite base).built {} 0 (dropping base) []) ["IMMEDIATE"] output) :=
    Site.leads_definition hready hopens hcolon hsemicolon hdrop (Nat.le_add_right _ _)
  exact hdefinition.trans (Site.leads_immediate hready (Nat.le_add_right _ _) himmediate
    (show "1" ≠ "IMMEDIATE" by decide))

def nextSite (base : Word) (name : String) : Site :=
  siteOf base (numbered base) ((base.plus (size parts)).plus (3 + (dropping base).length))
    (.addr (base.plus (size parts))) name

/-- The number is run in the middle of a definition, and finds nothing to drop. -/
theorem fails_numbered (hf : Free base (size parts + (6 + n)))
    (hb : (base.plus (size parts)).toInt + (6 + n : Nat) ≤ Word.bound) (hn : 4 ≤ n) :
    Fails (Awaits (numbered base) (":" :: name :: "1" :: ws) output) .stackUnderflow "DROP"
      fun _ => True := by
  have hparts : Free base (size parts) := hf.mono (by omega)
  have hroom : Free (base.plus (size parts)) (3 + (dropping base).length + n) := hf.drop
  have hk := keeps_numbered (u := marking) hf hb (by decide)
  have hr := room_numbered (u := marking) hf hb (by omega)
  have hready : (nextSite base name).Ready (builtinField base) n :=
    ready_of_keeps hparts hk hr (by decide) (by decide)
  have hcolon : (nextSite base name).HasWord n .colon :=
    hasWord_of_keeps hparts hk hr (by decide) (by decide)
  have hopens : (nextSite base name).Opens :=
    ⟨hr.here, Site.latestLink_built (hroom.mono (Nat.le_add_right _ _)),
      Site.isCompiling_built (hroom.mono (Nat.le_add_right _ _))⟩
  have hopened : Leads (Awaits (numbered base) (":" :: name :: "1" :: ws) output)
      (Awaits ((nextSite base name).draft [.builtin .docol] []) ("1" :: ws) output) :=
    Site.leads_unfinished hready hopens hcolon Site.compiles_nil hn
  have hcells : (nextSite base name).memory.Keeps (nextSite base name).start n
      ((base.plus (size parts)).plus 3) (dropping base) := enter_keeps hroom
  obtain ⟨hdocol, hrest⟩ := keeps_cons.mp hcells
  have hone : (numbered base).dictionary.find? "1" =
      some ((numberSite base).entry { immediate := true }) := Site.find?_visible rfl
  have hfind : ((nextSite base name).draft [.builtin .docol] []).dictionary.find? "1" =
      some ((numberSite base).entry { immediate := true }) := (Site.find?_hidden rfl "1").trans hone
  have hcell {a : Word} {c : Cell}
      (h : Fixed (nextSite base name).memory (nextSite base name).start n a c) :
      ((nextSite base name).memoryWith 1 [.builtin .docol])[a]? = some c := Site.fixed_memoryWith h hn
  have hdrop : Fixed (nextSite base name).memory (nextSite base name).start n (builtinField base .drop)
      (.builtin .drop) := fixed_builtin_of_keeps hparts hk hr (by decide)
  refine (hopened.trans (leads_entered (hready.loop_memoryWith hn) (meaning_of_find? hfind (.inl rfl))
    (hcell hdocol))).fails ?_
  exact fails_awaits fun _ => (fails_drop (hcell (keeps_cons.mp hrest).1) (hcell hdrop)).mono
    fun _ _ => trivial

theorem reaches_numbered :
    ∃ fuel installed m,
      install fuel 16 {} = (.ok ⟨16, 228⟩, installed) ∧
      (⟨16, 228⟩ : Image).evaluate fuel { rest := ": 1 DROP ; IMMEDIATE".toList } installed =
        (.finished, m) ∧
      installed.state = idle defaultBase parts ∧ m.state = numbered defaultBase := by
  have hbase : isValidBase defaultBase = true := by decide
  have hf : Free defaultBase (size parts + (6 + 1)) := free_default (by decide)
  have hb : (defaultBase.plus (size parts)).toInt + (6 + 1 : Nat) ≤ Word.bound := bound_default (by decide)
  obtain ⟨n, installed, hinstall, hstate, -⟩ := install_apply hbase {}
  rw [← image, image_default] at hinstall
  have hleads : Leads (Awaits (running installed.state.memory installed.state.dictionary
      (image defaultBase).quit installed.state.returns installed.state.stack)
      (Source.words ": 1 DROP ; IMMEDIATE".toList) none) (Awaits (numbered defaultBase) [] none) := by
    rw [hstate, show Source.words ": 1 DROP ; IMMEDIATE".toList = [":", "1", "DROP", ";", "IMMEDIATE"] by
      decide +kernel]
    exact leads_numbered hf hb
  have hready : (nextSite defaultBase "").Ready (builtinField defaultBase) 1 :=
    ready_of_keeps (hf.mono (by omega)) (keeps_numbered (u := defining) hf hb (by decide))
      (room_numbered hf hb (by decide)) (by decide) (by decide)
  obtain ⟨k, m, heval, hm, -⟩ := evaluate_of_leads (image defaultBase) installed hready.loop_memory
    (by simp) hleads
  rw [image_default] at heval
  exact ⟨max n k, installed, m, hinstall _ (by omega), heval _ (by omega), hstate, hm⟩

/-- A number that is also the name of an immediate word is run, not compiled: here it drops a cell that is
not there, and the definition fails before the word without a meaning is read. -/
theorem immediate_number_stops_definition :
    ∃ fuel installed m n t m',
      install fuel 16 {} = (.ok ⟨16, 228⟩, installed) ∧
      (⟨16, 228⟩ : Image).evaluate fuel { rest := ": 1 DROP ; IMMEDIATE".toList } installed =
        (.finished, m) ∧
      (⟨16, 228⟩ : Image).Keeps defining installed.state m.state ∧
      m.state.isCompiling = false ∧
      (⟨16, 228⟩ : Image).Room defining installed.state m.state 433 13 ∧
      m.state.Agrees 433 13 ∧
      Numeral.decimal? "1".toList = some 1 ∧
      m.state.dictionary.find? "X" = none ∧ Numeral.decimal? "X".toList = none ∧
      Source.words ": N 1 X".toList = ":" :: "N" :: (["1"] ++ "X" :: []) ∧
      (∀ k, n ≤ k → (⟨16, 228⟩ : Image).evaluate k { rest := ": N 1 X".toList } m = (.trapped t, m')) ∧
      t.kind = .stackUnderflow := by
  have hf : Free defaultBase (size parts + (6 + 13)) := free_default (by decide)
  have hb : (defaultBase.plus (size parts)).toInt + (6 + 13 : Nat) ≤ Word.bound := bound_default (by decide)
  obtain ⟨fuel, installed, m, hinstall, heval, hstate, hm⟩ := reaches_numbered
  have hwords : Source.words ": N 1 X".toList = ":" :: "N" :: (["1"] ++ "X" :: []) := by decide +kernel
  have hfails : Fails (Awaits (running m.state.memory m.state.dictionary (image defaultBase).quit
      m.state.returns m.state.stack) (Source.words ": N 1 X".toList) none) .stackUnderflow "DROP"
      fun _ => True := by
    rw [hm, hwords]
    exact fails_numbered hf hb (by decide)
  obtain ⟨n, t, m', htrap, hkind, -⟩ := evaluate_of_fails (image defaultBase) m (by simp) (by decide) hfails
  have hroom : (image defaultBase).Room defining installed.state m.state 433 13 := by
    have hend : (defaultBase.plus (size parts)).plus (3 + (dropping defaultBase).length) = 433 := by
      rw [end_default]
      decide
    rw [hstate, hm, ← hend]
    exact room_numbered hf hb (by decide)
  have hkeeps : (image defaultBase).Keeps defining installed.state m.state := by
    rw [hstate, hm]
    exact keeps_numbered hf hb (by decide)
  have hwell : m.state.WellFormed := by
    rw [hm]
    exact wellFormed_numbered hf (by decide) hb (by decide) (by rw [end_default]; decide)
  have hunknown : m.state.dictionary.find? "X" = none := by
    rw [hm, find?_numbered (by decide)]
    exact find?_placed_none (by decide +kernel)
  have hmode : m.state.isCompiling = false := by
    rw [hm]
    exact Site.isCompiling_built (hf.drop.mono (by decide))
  have hagrees := hwell.agrees hroom.here hroom.bound
  rw [image_default] at htrap hkeeps hroom
  exact ⟨fuel, installed, m, n, t, _, hinstall, heval, hkeeps, hmode, hroom, hagrees, by decide +kernel,
    hunknown, by decide +kernel, hwords, htrap, hkind⟩

end Numbers

end Image

end ForthMachine
