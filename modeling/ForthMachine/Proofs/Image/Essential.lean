import ForthMachine.Proofs.Image.Installation

/-!
What a program must leave alone so that an image keeps working: the outer interpreter, the code fields
of built-in words, and the definitions that are to be used. A machine in which these are as they were
installed can be anything else.
-/

namespace ForthMachine

open Memory State Machine

namespace Image

def InDefinition (M : Memory) (code a : Word) : Prop :=
  M[code]? = some (.builtin .docol) ∧
    ∃ n, a = code.plus n ∧ ∀ i, i < n → M[code.plus i]? ≠ some (.builtin .exit)

/-- What is used of an image: words that are found by their names, and built-in words that are run. -/
structure Usage where
  words : List String
  builtins : List Builtin

/-- The cells that an image rests on when it is used so: the outer interpreter, the code fields of the
built-in words, and the definitions among the words. -/
inductive Essential (img : Image) (u : Usage) (st : State) : Word → Prop where
  | loop {i : Nat} : i < 3 → Essential img u st (img.quit.plus i)
  | builtin {b : Builtin} {e : Entry} : b ∈ u.builtins → st.dictionary.find? b.name = some e →
      Essential img u st e.code
  | definition {w : String} {e : Entry} {a : Word} : w ∈ u.words → st.dictionary.find? w = some e →
      InDefinition st.memory e.code a → Essential img u st a

/-- What is used means what it meant when the image was installed: the words are found as then, and no
cell that the image rests on has changed. -/
structure Keeps (img : Image) (u : Usage) (installed st : State) : Prop where
  names : ∀ w ∈ u.words, st.dictionary.find? w = installed.dictionary.find? w
  cells : ∀ a, img.Essential u installed a → st.memory[a]? = installed.memory[a]?

/-- There is room for `n` cells at the next free address `h`: they do not wrap around, and none of them
is a system variable or a cell that the image rests on. -/
structure Room (img : Image) (u : Usage) (installed st : State) (h : Word) (n : Nat) : Prop where
  here : ∃ d, st.memory[hereAddress]? = some d ∧ d.address? = some h
  bound : h.toInt + n ≤ Word.bound
  free : ∀ i, i < n → h.plus i ∉ [hereAddress, latestAddress, stateAddress] ∧
    ¬ img.Essential u installed (h.plus i)

end Image

namespace Blueprint

open Image

variable {base : Word} {u : Usage}

/-- There is no EXIT in the code of a structured body. -/
theorem exit_notMem_code (links : Branches) (b : Body Word Word) :
    Cell.builtin .exit ∉ b.code links := by
  induction b with
  | empty => simp [Body.code]
  | seq first second ihf ihs => simp [Body.code, ihf, ihs]
  | literal n => simp [Body.code, Cell.builtin]
  | word w => simp [Body.code, Cell.builtin]
  | ifThen yes ih => simpa [Body.code, Cell.builtin] using ih
  | ifElse yes no ihy ihn =>
    simp only [Cell.builtin] at ihy ihn
    simp [Body.code, Cell.builtin, ihy, ihn]
  | beginUntil body ih => simpa [Body.code, Cell.builtin] using ih
  | beginAgain body ih => simpa [Body.code, Cell.builtin] using ih

theorem exit_notMem_items (field : String → Word) (items : List Item) :
    Cell.builtin .exit ∉ items.flatMap (Item.code field) := by
  rw [List.mem_flatMap]
  rintro ⟨item, -, hmem⟩
  cases item with
  | quote name => simp [Item.code, Cell.builtin] at hmem
  | body b => exact exit_notMem_code _ _ hmem

/-- The only EXIT of a definition is its last cell. -/
theorem exit_at_end {field : String → Word} {items : List Item} {i : Nat}
    (h : (.builtin .docol :: (items.flatMap (Item.code field) ++ [.builtin .exit]) : List Cell)[i]? =
      some (.builtin .exit)) : i = (items.flatMap (Item.code field)).length + 1 := by
  have hno := exit_notMem_items field items
  -- the first cell is DOCOL, and there is no EXIT in the code of the items
  cases i with
  | zero => simp [Cell.builtin] at h
  | succ i =>
    rw [List.getElem?_cons_succ, List.getElem?_append] at h
    split at h
    · exact absurd (List.mem_of_getElem? h) hno
    · have hi : i - (items.flatMap (Item.code field)).length < 1 := by
        obtain ⟨hlt, -⟩ := List.getElem?_eq_some_iff.mp h
        simpa using hlt
      omega

theorem keeps_parts (hf : Free base (size parts)) {p : Part} (hp : p ∈ parts) :
    (placed base parts).memory.Keeps (base.plus (size parts)) 0 (field base p.name)
      (p.cells (field base)) :=
  keeps_placed (List.append_nil parts).symm hf hp

/-- In a new image every part is found by its name. -/
theorem find?_parts {p : Part} (hp : p ∈ parts) :
    (placed base parts).dictionary.find? p.name = some (visible base p) :=
  find?_placed (List.append_nil parts).symm hp

theorem find?_builtin (base : Word) (b : Builtin) :
    (placed base parts).dictionary.find? b.name = some (visible base (ofBuiltin b)) :=
  find?_parts (p := ofBuiltin b) (grounded_parts.2 b)

theorem sound_parts (hf : Free base (size parts)) : Sound base (placed base parts) :=
  sound_placed (List.append_nil parts).symm hf

theorem here_parts (hf : Free base (size parts)) :
    (placed base parts).memory[hereAddress]? = some (.addr (base.plus (size parts))) := by
  have hhere := (sound_parts hf).here
  rwa [used_placed] at hhere

/-- In a new image nothing but its parts is found. -/
theorem part_of_find? {w : String} {e : Entry}
    (h : (placed base parts).dictionary.find? w = some e) :
    ∃ p ∈ parts, p.name = w ∧ e = visible base p := by
  by_cases hw : w ∈ parts.map Part.name
  · obtain ⟨p, hp, rfl⟩ := List.mem_map.mp hw
    rw [find?_parts hp, Option.some.injEq] at h
    exact ⟨p, hp, rfl, h.symm⟩
  · rw [find?_placed_none hw] at h
    cases h

section Kept

variable {st : State} {h : Word} {n : Nat}

def image (base : Word) : Image := ⟨base, quitAddress base⟩

/-- The image rests on the code fields of the built-in words that are used. -/
theorem essential_builtin {b : Builtin} (hb : b ∈ u.builtins) :
    (image base).Essential u (idle base parts) (builtinField base b) := by
  have hfind : (idle base parts).dictionary.find? b.name = some (visible base (ofBuiltin b)) :=
    find?_builtin base b
  exact Essential.builtin hb hfind

/-- The image rests on all cells of the definitions that are used. -/
theorem essential_definition (hf : Free base (size parts)) {p : Part} {items : List Item} {i : Nat}
    (hp : p ∈ parts) (hw : p.name ∈ u.words) (hd : p.content = .definition items)
    (hi : i < (p.cells (field base)).length) :
    (image base).Essential u (idle base parts) ((field base p.name).plus i) := by
  have hholds := (keeps_parts hf hp).holds
  have hcells : p.cells (field base) =
      .builtin .docol :: (items.flatMap (Item.code (field base)) ++ [.builtin .exit]) := by
    rw [Part.cells, hd]
  refine .definition hw (find?_parts hp) ⟨?_, i, rfl, fun j hj hexit => ?_⟩
  · have hfirst := hholds 0 (by omega)
    rw [Word.plus_zero, hcells] at hfirst
    exact hfirst
  · have hcell : (p.cells (field base))[j]? = some (.builtin .exit) :=
      (hholds j (by omega)).symm.trans hexit
    rw [hcells] at hcell
    have hlast := exit_at_end hcell
    rw [hcells] at hi
    simp only [List.length_cons, List.length_append, List.length_nil] at hi
    omega

/-- Room for a definition is a block that can be filled. -/
theorem free_of_room (hr : Room (image base) u (idle base parts) st h n) : Free h n := by
  have hne (i : Nat) (hi : i < n) := (hr.free i hi).1
  simp only [List.mem_cons, List.not_mem_nil, or_false, not_or] at hne
  refine ⟨?_, fun i hi => (hne i hi).1, fun i hi => (hne i hi).2.1, fun i hi => (hne i hi).2.2⟩
  have hbound := hr.bound
  have hmin : -(Word.bound : Int) ≤ h.toInt := by
    have := Int64.le_toInt h
    unfold Word.bound
    omega
  unfold Word.count
  unfold Word.bound at hbound hmin
  omega

/-- A cell that the image rests on is still there, and the next definition does not touch it. -/
theorem fixed_of_keeps (hk : (image base).Keeps u (idle base parts) st)
    (hr : Room (image base) u (idle base parts) st h n) {a : Word} {c : Cell}
    (hc : Fixed (placed base parts).memory (base.plus (size parts)) 0 a c)
    (he : (image base).Essential u (idle base parts) a) : Fixed st.memory h n a c where
  cell := (hk.cells a he).trans hc.cell
  here := hc.here
  latest := hc.latest
  state := hc.state
  outside i hi heq := (hr.free i hi).2 (heq ▸ he)

theorem length_cells_pos (f : String → Word) (p : Part) : 0 < (p.cells f).length := by
  unfold Part.cells
  cases p.content <;> simp

theorem field_eq {name : String} {k : Nat} (h : offset name parts = k) :
    field base name = base.plus k := by
  rw [field, h]

theorem size_parts : size parts = 411 := by
  decide +kernel

theorem quitAddress_eq : quitAddress base = base.plus 212 := by
  have hoffset : offset "QUIT" parts = 211 := by decide +kernel
  rw [quitAddress, field_eq hoffset, Word.plus_plus]

theorem exit_in_image (hf : Free base (size parts)) :
    (placed base parts).memory[base.plus 410]? = some (.builtin .exit) := by
  have hoffset : offset "SPACE" parts = 407 := by decide +kernel
  have hmem : colon "SPACE" (.ofWords ["BL", "EMIT"]) ∈ parts := by decide +kernel
  have hcell := (keeps_parts hf hmem 3 (.builtin .exit) rfl).cell
  rw [show (colon "SPACE" (.ofWords ["BL", "EMIT"])).name = "SPACE" from rfl, field_eq hoffset,
    Word.plus_plus] at hcell
  exact hcell

/-- Everything that the image rests on lies in it: the last cell of the image is an EXIT, so that the
cells of a definition do not reach beyond. -/
theorem within_of_essential (hf : Free base (size parts)) {a : Word}
    (he : (image base).Essential u (idle base parts) a) : ∃ i, i < size parts ∧ a = base.plus i := by
  have hfield {w : String} {e : Entry} (hw : (placed base parts).dictionary.find? w = some e) :
      ∃ i, i < size parts ∧ e.code = base.plus i := by
    obtain ⟨p, hp, rfl, rfl⟩ := part_of_find? hw
    obtain ⟨front, back, hsplit⟩ := List.append_of_mem hp
    have hsize := size_eq (field base) p
    have hpos := length_cells_pos (field base) p
    refine ⟨size front + 3, ?_, field_of_split hsplit⟩
    rw [hsplit, size_append, size_cons]
    omega
  cases he with
  | @loop i hi =>
    refine ⟨212 + i, by rw [size_parts]; omega, ?_⟩
    rw [show (image base).quit = quitAddress base from rfl, quitAddress_eq, Word.plus_plus]
  | builtin _ hfind => exact hfield hfind
  | definition hw hfind hin =>
    obtain ⟨i, hi, hcode⟩ := hfield hfind
    obtain ⟨-, n, rfl, hno⟩ := hin
    rw [size_parts] at hi ⊢
    refine ⟨i + n, ?_, by rw [hcode, Word.plus_plus]⟩
    by_cases hn : i + n < 411
    · exact hn
    · refine absurd ?_ (hno (410 - i) (by omega))
      rw [hcode, Word.plus_plus, Nat.add_sub_cancel' (by omega)]
      exact exit_in_image hf

/-- Behind the image there is room as long as addresses do not wrap around. -/
theorem room_behind (hf : Free base (size parts + n)) (hb : (base.plus (size parts)).toInt + n ≤ Word.bound)
    (hh : st.memory[hereAddress]? = some (.addr (base.plus (size parts)))) :
    Room (image base) u (idle base parts) st (base.plus (size parts)) n where
  here := ⟨_, hh, rfl⟩
  bound := hb
  free i hi := by
    have hcount := hf.count
    rw [Word.plus_plus]
    refine ⟨?_, fun he => ?_⟩
    · simp only [List.mem_cons, List.not_mem_nil, or_false, not_or]
      exact ⟨hf.here _ (by omega), hf.latest _ (by omega), hf.state _ (by omega)⟩
    · obtain ⟨j, hj, heq⟩ := within_of_essential (hf.mono (by omega)) he
      exact Word.plus_ne_plus base (by omega) (by omega) (by omega) heq

/-- A system variable can be written without harm to what the image rests on. -/
theorem keeps_insert (hf : Free base (size parts)) {a : Word} (c : Cell)
    (ha : a ∈ [hereAddress, latestAddress, stateAddress])
    (hk : (image base).Keeps u (idle base parts) st) :
    (image base).Keeps u (idle base parts) { st with memory := st.memory.insert a c } where
  names := hk.names
  cells b hb := by
    obtain ⟨i, hi, rfl⟩ := within_of_essential hf hb
    have hne : a ≠ base.plus i := by
      simp only [List.mem_cons, List.not_mem_nil, or_false] at ha
      rcases ha with rfl | rfl | rfl
      · exact (hf.here i hi).symm
      · exact (hf.latest i hi).symm
      · exact (hf.state i hi).symm
    rw [getElem?_insert_ne _ _ hne]
    exact hk.cells _ hb

def siteOf (base : Word) (st : State) (h : Word) (link : Cell) (name : String) : Site where
  memory := st.memory
  dictionary := st.dictionary
  quit := quitAddress base
  returns := st.returns
  start := h
  link := link
  name := name

variable {link : Cell} {name : String}

/-- A definition does no harm to what the image rests on, as long as its name hides none of the words. -/
theorem keeps_built {flags : Flags} {mode : Word} {cells : List Cell} {S : Stack Cell}
    (hf : Free base (size parts)) (hk : (image base).Keeps u (idle base parts) st)
    (hr : Room (image base) u (idle base parts) st h n) (hn : 3 + cells.length ≤ n)
    (hw : ∀ w ∈ u.words, ((siteOf base st h link name).built flags mode cells S).dictionary.find? w =
      st.dictionary.find? w) :
    (image base).Keeps u (idle base parts) ((siteOf base st h link name).built flags mode cells S) where
  names w hmem := (hw w hmem).trans (hk.names w hmem)
  cells a he := by
    refine Eq.trans (Site.memoryWith_outside ?_ ?_ ?_ ?_) (hk.cells a he)
    all_goals obtain ⟨i, hi, heq⟩ := within_of_essential hf he
    · exact heq ▸ hf.here i hi
    · exact heq ▸ hf.latest i hi
    · exact heq ▸ hf.state i hi
    · exact fun j hj hj' => (hr.free j (by omega)).2 (hj' ▸ he)

/-- Behind a definition there is the rest of the room. -/
theorem room_built {flags : Flags} {mode : Word} {cells : List Cell} {S : Stack Cell}
    (hr : Room (image base) u (idle base parts) st h (3 + cells.length + n)) (hn : 0 < n) :
    Room (image base) u (idle base parts) ((siteOf base st h link name).built flags mode cells S)
      (h.plus (3 + cells.length)) n where
  here := ⟨_, enter_here, rfl⟩
  bound := by
    have hbound := hr.bound
    rw [Word.toInt_plus (by omega)]
    omega
  free i hi := by
    rw [Word.plus_plus]
    exact hr.free _ (by omega)

theorem fixed_builtin_of_keeps (hf : Free base (size parts))
    (hk : (image base).Keeps u (idle base parts) st)
    (hr : Room (image base) u (idle base parts) st h n) {b : Builtin} (hb : b ∈ u.builtins) :
    Fixed st.memory h n (builtinField base b) (.builtin b) :=
  fixed_of_keeps hk hr (keeps_singleton.mp (keeps_parts hf (grounded_parts.2 b))) (essential_builtin hb)

/-- Wherever the image is kept and there is room, a definition can be built. -/
theorem ready_of_keeps (hf : Free base (size parts))
    (hk : (image base).Keeps u (idle base parts) st)
    (hr : Room (image base) u (idle base parts) st h n) (hi : .interpret ∈ u.builtins)
    (hb : .branch ∈ u.builtins) : (siteOf base st h link name).Ready (builtinField base) n where
  free := free_of_room hr
  loop i c hc := by
    obtain ⟨hlt, -⟩ := List.getElem?_eq_some_iff.mp hc
    have hcells := (keeps_cons.mp (keeps_parts hf grounded_parts.1)).2
    exact fixed_of_keeps hk hr (hcells i c hc) (.loop (by simpa using hlt))
  interpret := fixed_builtin_of_keeps hf hk hr hi
  branch := fixed_builtin_of_keeps hf hk hr hb

theorem hasWord_of_keeps (hf : Free base (size parts))
    (hk : (image base).Keeps u (idle base parts) st)
    (hr : Room (image base) u (idle base parts) st h n) {b : Builtin} (hw : b.name ∈ u.words)
    (hb : b ∈ u.builtins) : (siteOf base st h link name).HasWord n b := by
  have hfind : st.dictionary.find? b.name = some (visible base (ofBuiltin b)) :=
    (hk.names _ hw).trans (find?_builtin base b)
  exact ⟨visible base (ofBuiltin b), hfind, rfl, fixed_builtin_of_keeps hf hk hr hb⟩

/-- A definition of the image that is among the words is still there. -/
theorem keeps_definition_of_keeps (hf : Free base (size parts))
    (hk : (image base).Keeps u (idle base parts) st)
    (hr : Room (image base) u (idle base parts) st h n) {p : Part} {items : List Item}
    (hp : p ∈ parts) (hw : p.name ∈ u.words) (hd : p.content = .definition items) :
    st.memory.Keeps h n (field base p.name) (p.cells (field base)) := by
  intro i c hi
  obtain ⟨hlt, -⟩ := List.getElem?_eq_some_iff.mp hi
  exact fixed_of_keeps hk hr (keeps_parts hf hp i c hi) (essential_definition hf hp hw hd hlt)

/-- Wherever the image is kept, the control words are there to compile with. -/
theorem hasControls_of_keeps (hf : Free base (size parts))
    (hk : (image base).Keeps u (idle base parts) st)
    (hr : Room (image base) u (idle base parts) st h n) (hw : ∀ k : Control, k.name ∈ u.words)
    (hb : ∀ b, b ∈ u.builtins) :
    (siteOf base st h link name).HasControls (builtinField base) n := by
  refine ⟨⟨ready_of_keeps hf hk hr (hb _) (hb _), fun b => fixed_builtin_of_keeps hf hk hr (hb b)⟩,
    fun k => ?_⟩
  obtain ⟨p, hp, hname, himm, ⟨items, hitems⟩, hcells⟩ := part_of_control base k
  have hmem : p ∈ parts := by
    rw [parts_eq_ground]
    exact List.mem_append_right _ (List.mem_append_left _ hp)
  have hdef := keeps_definition_of_keeps hf hk hr hmem (hname ▸ hw k) hitems
  rw [hcells] at hdef
  refine ⟨visible base p, ?_, himm, hdef⟩
  have hfind := (hk.names _ (hw k)).trans (hname ▸ find?_parts hmem)
  exact hfind

/-! The image at the default base. -/

theorem image_default : image defaultBase = ⟨16, 228⟩ := by
  rw [image, quitAddress_eq]
  decide

theorem end_default : defaultBase.plus (size parts) = 427 := by
  rw [size_parts]
  decide

theorem free_default (hn : n ≤ 1000) : Free defaultBase (size parts + n) := by
  apply free_of_isValidBase (by decide)
  rw [size_parts, Word.bound]
  omega

theorem bound_default (hn : n ≤ 1000) : (defaultBase.plus (size parts)).toInt + n ≤ Word.bound := by
  rw [end_default, Word.bound, show (427 : Word).toInt = 427 from rfl]
  omega

end Kept

end Blueprint

end ForthMachine
