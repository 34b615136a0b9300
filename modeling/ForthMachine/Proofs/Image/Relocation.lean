import ForthMachine.Proofs.Image.Essential
import ForthMachine.Settings.Basic

namespace ForthMachine

open Memory

def Cell.relocate (d : Word) : Cell → Cell
  | .addr a => .addr (a + d)
  | .ref code => .ref (code + d)
  | c => c

namespace Memory

def IsVariable (a : Word) : Prop := a = hereAddress ∨ a = latestAddress ∨ a = stateAddress

instance (a : Word) : Decidable (IsVariable a) := inferInstanceAs (Decidable (_ ∨ _ ∨ _))

def shift (d a : Word) : Word := if IsVariable a then a else a + d

def relocate (d : Word) (M : Memory) : Memory :=
  Std.ExtTreeMap.ofList (M.toList.map fun (a, c) => (shift d a, c.relocate d))

/-- An address that is not moved onto a system variable. -/
def Movable (d a : Word) : Prop := IsVariable a ∨ ¬IsVariable (a + d)

variable {d a b : Word} {M N : Memory} {c : Cell}

/-- No two cells are moved to the same address. -/
theorem shift_injective (ha : Movable d a) (hb : Movable d b) (h : shift d a = shift d b) : a = b := by
  -- a variable stays, so the only clash would be a cell that is moved onto it
  unfold shift at h
  by_cases hva : IsVariable a
  · by_cases hvb : IsVariable b
    · rwa [if_pos hva, if_pos hvb] at h
    · rw [if_pos hva, if_neg hvb] at h
      exact absurd (h ▸ hva) (hb.resolve_left hvb)
  · by_cases hvb : IsVariable b
    · rw [if_neg hva, if_pos hvb] at h
      exact absurd (h ▸ hvb) (ha.resolve_left hva)
    · rw [if_neg hva, if_neg hvb] at h
      exact (Int64.add_left_inj d).mp h

/-- The second memory holds the cells of the first one, moved, and nothing else. -/
structure Relocates (d : Word) (M N : Memory) : Prop where
  movable : ∀ a c, M[a]? = some c → Movable d a
  moved : ∀ a c, M[a]? = some c → N[shift d a]? = some (c.relocate d)
  origin : ∀ x c, N[x]? = some c → ∃ a c', M[a]? = some c' ∧ shift d a = x

/-- A memory with the moved cells and no others is the moved memory. -/
theorem Relocates.eq (h : Relocates d M N) : N = M.relocate d := by
  -- no two cells are moved to the same address, so the list of the moved cells loses none
  have hdistinct : (M.toList.map fun (a, c) => (shift d a, c.relocate d)).Pairwise
      fun x y => ¬compare x.1 y.1 = .eq := by
    rw [List.pairwise_map]
    refine Std.ExtTreeMap.distinct_keys_toList.imp_of_mem ?_
    rintro ⟨a, c⟩ ⟨b, c'⟩ ha hb hne heq
    rw [Std.ExtTreeMap.mem_toList_iff_getElem?_eq_some] at ha hb
    have hshift : shift d a = shift d b := Std.LawfulEqCmp.eq_of_compare heq
    have hab := shift_injective (h.movable a c ha) (h.movable b c' hb) hshift
    rw [hab] at hne
    exact hne Std.ReflCmp.compare_self
  apply Std.ExtTreeMap.ext_getElem?
  intro x
  cases hx : N[x]? with
  | some c' =>
    obtain ⟨a, c, ha, rfl⟩ := h.origin x c' hx
    have hc : c' = c.relocate d := Option.some.inj (hx.symm.trans (h.moved a c ha))
    symm
    apply Std.ExtTreeMap.getElem?_ofList_of_mem Std.ReflCmp.compare_self hdistinct
    rw [hc]
    exact List.mem_map.mpr ⟨(a, c), Std.ExtTreeMap.mem_toList_iff_getElem?_eq_some.mpr ha, rfl⟩
  | none =>
    symm
    apply Std.ExtTreeMap.getElem?_ofList_of_contains_eq_false
    rw [Bool.eq_false_iff]
    intro hcontains
    obtain ⟨y, hy, rfl⟩ := List.mem_map.mp (List.contains_iff_mem.mp hcontains)
    obtain ⟨⟨a, c⟩, ha, rfl⟩ := List.mem_map.mp hy
    have hmoved := h.moved a c (Std.ExtTreeMap.mem_toList_iff_getElem?_eq_some.mp ha)
    cases hx.symm.trans hmoved

theorem relocates_empty (d : Word) : Relocates d ∅ ∅ := by
  refine ⟨?_, ?_, ?_⟩
  · intro a c h
    simp at h
  · intro a c h
    simp at h
  · intro x c h
    simp at h

/-- A cell is written, in the one memory and in the other. -/
theorem Relocates.insert (h : Relocates d M N) (ha : Movable d a) (c : Cell) :
    Relocates d (M.insert a c) (N.insert (shift d a) (c.relocate d)) := by
  refine ⟨?_, ?_, ?_⟩
  · intro b c' hb
    rw [getElem?_insert_ite] at hb
    split at hb
    · next hab => exact hab ▸ ha
    · exact h.movable b c' hb
  · intro b c' hb
    rw [getElem?_insert_ite] at hb
    split at hb
    · next hab =>
      cases hb
      rw [← hab, getElem?_insert_eq]
    · next hab =>
      have hne : shift d a ≠ shift d b := fun hs => hab (shift_injective ha (h.movable b c' hb) hs)
      rw [getElem?_insert_ne _ _ hne]
      exact h.moved b c' hb
  · intro x c' hx
    rw [getElem?_insert_ite] at hx
    split at hx
    · next hax => exact ⟨a, c, getElem?_insert_eq M a c, hax⟩
    · obtain ⟨b, c₀, hb, rfl⟩ := h.origin x c' hx
      by_cases hab : a = b
      · exact ⟨a, c, getElem?_insert_eq M a c, by rw [hab]⟩
      · exact ⟨b, c₀, (getElem?_insert_ne M c hab).trans hb, rfl⟩

/-- A system variable gets another value. -/
theorem Relocates.insert_variable (h : Relocates d M N) (ha : IsVariable a) (c : Cell) :
    Relocates d (M.insert a c) (N.insert a (c.relocate d)) := by
  have hinsert := h.insert (.inl ha) c
  rwa [shift, if_pos ha] at hinsert

theorem not_isVariable {h : Word} {n : Nat} (hf : Free h n) (hn : 0 < n) : ¬IsVariable h := by
  have hzero := h.plus_zero
  rintro (he | he | he)
  · exact hf.here 0 hn (hzero.trans he)
  · exact hf.latest 0 hn (hzero.trans he)
  · exact hf.state 0 hn (hzero.trans he)

/-- A block is written, in the one memory and in the other. -/
theorem Relocates.load {cells : List Cell} (h : Relocates d M N) (hf : Free a cells.length)
    (hf' : Free (a + d) cells.length) :
    Relocates d (M.load a cells) (N.load (a + d) (cells.map (Cell.relocate d))) := by
  induction cells generalizing M N a with
  | nil => exact h
  | cons c cells ih =>
    have hva : ¬IsVariable a := not_isVariable hf (Nat.zero_lt_succ _)
    have hvd : ¬IsVariable (a + d) := not_isVariable hf' (Nat.zero_lt_succ _)
    have hinsert := h.insert (.inr hvd) c
    rw [shift, if_neg hva] at hinsert
    rw [List.length_cons, Nat.add_comm] at hf hf'
    rw [List.map_cons, Memory.load, Memory.load, Word.add_one, Word.add_one, ← Word.plus_add]
    apply ih hinsert hf.drop
    rw [Word.plus_add]
    exact hf'.drop

/-- A definition is entered, in the one memory and in the other. -/
theorem Relocates.enter {h : Word} {cells : List Cell} (hr : Relocates d M N) (link : Cell)
    (name : String) (hf : Free h (3 + cells.length)) (hf' : Free (h + d) (3 + cells.length)) :
    Relocates d (M.enter h link name cells)
      (N.enter (h + d) (link.relocate d) name (cells.map (Cell.relocate d))) := by
  have hcells : entryCells (h + d) (link.relocate d) name (cells.map (Cell.relocate d)) =
      (entryCells h link name cells).map (Cell.relocate d) := by
    simp only [entryCells, List.map_cons, Cell.relocate, Word.plus_add]
  have hlatest := hr.insert_variable (.inr (.inl rfl)) (.addr h)
  have hload := hlatest.load (length_entryCells h link name cells ▸ hf)
    (length_entryCells h link name cells ▸ hf')
  have hhere := hload.insert_variable (a := hereAddress) (.inl rfl)
    (.addr (h.plus (entryCells h link name cells).length))
  simp only [Memory.enter, append, hcells, List.length_map]
  simpa only [Cell.relocate, Word.plus_add] using hhere

end Memory

def Entry.relocate (d : Word) (e : Entry) : Entry := { e with code := e.code + d }

def Dictionary.relocate (d : Word) (D : Dictionary) : Dictionary :=
  .ofList (D.entries.toList.map (Entry.relocate d))

theorem Dictionary.relocate_insert (d : Word) (D : Dictionary) (e : Entry) :
    (D.insert e).relocate d = (D.relocate d).insert (e.relocate d) := by
  rw [relocate, entries_insert, List.map_append, ofList, List.foldl_append]
  rfl

def State.relocate (d : Word) (st : State) : State where
  ip := st.ip + d
  nip := st.nip + d
  memory := st.memory.relocate d
  dictionary := st.dictionary.relocate d
  returns := st.returns.map (· + d)
  stack := st.stack.map (Cell.relocate d)

namespace Blueprint

section Cells

variable {d : Word} {f g : String → Word}

/-- The code of a body moves with the words that it refers to: a branch counts cells, so its offset does not
depend on where they are. -/
theorem code_relocate (hfg : ∀ name, g name = f name + d) (b : Body String String) :
    ((b.locate f).code (branches f)).map (Cell.relocate d) = (b.locate g).code (branches g) := by
  have hlength := length_code_locate f g (branches f) (branches g)
  have hzero : (branches g).zeroBranch = (branches f).zeroBranch + d := hfg "0BRANCH"
  have hbranch : (branches g).branch = (branches f).branch + d := hfg "BRANCH"
  induction b with
  | empty => rfl
  | seq first second ihf ihs => simp only [Body.locate, Body.code, List.map_append, ihf, ihs]
  | literal token => rfl
  | word name => simp only [Body.locate, Body.code, List.map_cons, List.map_nil, Cell.relocate, hfg]
  | ifThen yes ih =>
    simp only [Body.locate, Body.code, List.map_append, List.map_cons, List.map_nil, Cell.relocate, ih,
      hlength, hzero]
  | ifElse yes no ihy ihn =>
    simp only [Body.locate, Body.code, List.map_append, List.map_cons, List.map_nil, Cell.relocate, ihy,
      ihn, hlength, hzero, hbranch]
  | beginUntil body ih =>
    simp only [Body.locate, Body.code, List.map_append, List.map_cons, List.map_nil, Cell.relocate, ih,
      hlength, hzero]
  | beginAgain body ih =>
    simp only [Body.locate, Body.code, List.map_append, List.map_cons, List.map_nil, Cell.relocate, ih,
      hlength, hbranch]

theorem items_relocate (hfg : ∀ name, g name = f name + d) (items : List Item) :
    (items.flatMap (Item.code f)).map (Cell.relocate d) = items.flatMap (Item.code g) := by
  induction items with
  | nil => rfl
  | cons item items ih =>
    rw [List.flatMap_cons, List.flatMap_cons, List.map_append, ih]
    congr 1
    cases item with
    | quote name => simp only [Item.code, List.map_cons, List.map_nil, Cell.relocate, Cell.builtin, hfg]
    | body b => exact code_relocate hfg b

theorem cells_relocate (hfg : ∀ name, g name = f name + d) (p : Part) :
    (p.cells f).map (Cell.relocate d) = p.cells g := by
  unfold Part.cells
  cases p.content with
  | builtin b => rfl
  | loop => simp only [List.map_cons, List.map_nil, Cell.relocate, Cell.builtin, hfg]
  | definition items =>
    simp only [List.map_cons, List.map_append, List.map_nil, Cell.relocate, Cell.builtin,
      items_relocate hfg]

end Cells

variable {base base' : Word}

/-- Code fields lie at fixed distances from the base. -/
theorem field_relocate (base base' : Word) (name : String) :
    field base' name = field base name + (base' - base) := by
  rw [field, field, Word.plus_add]
  congr 1
  grind

structure Placement.Follows (d : Word) (q r : Placement) : Prop where
  memory : Relocates d q.memory r.memory
  dictionary : r.dictionary = q.dictionary.relocate d
  used : r.used = q.used
  link : r.link = q.link.relocate d

theorem add_sub_base (base base' : Word) : base + (base' - base) = base' := by
  grind

theorem follows_start (base base' : Word) : (start base).Follows (base' - base) (start base') := by
  have hhere := (relocates_empty (base' - base)).insert_variable (a := hereAddress) (.inl rfl) (.addr base)
  have hlatest := hhere.insert_variable (a := latestAddress) (.inr (.inl rfl)) .nil
  have hstate := hlatest.insert_variable (a := stateAddress) (.inr (.inr rfl)) (.int 0)
  simp only [Cell.relocate, add_sub_base] at hstate
  exact ⟨hstate, rfl, rfl, rfl⟩

/-- A part is added, in the one image and in the other. -/
theorem Placement.Follows.add {q r : Placement} {p : Part} (h : q.Follows (base' - base) r)
    (hf : Free (base.plus q.used) p.size) (hf' : Free (base'.plus q.used) p.size) :
    (Blueprint.add base q p).Follows (base' - base) (Blueprint.add base' r p) := by
  have hmoved : base.plus q.used + (base' - base) = base'.plus q.used := by
    rw [Word.plus_add, add_sub_base]
  have hcells := cells_relocate (field_relocate base base') p
  rw [size_eq (field base) p] at hf hf'
  have hmemory := h.memory.enter q.link p.name hf (hmoved ▸ hf')
  rw [hmoved, hcells, ← h.link] at hmemory
  refine ⟨?_, ?_, ?_, ?_⟩
  · simp only [Blueprint.add, h.used]
    exact hmemory
  · have hentry : Blueprint.entry base' q.used p = (Blueprint.entry base q.used p).relocate (base' - base) := by
      simp only [Blueprint.entry, Entry.relocate, Word.plus_add, add_sub_base]
    simp only [Blueprint.add, Dictionary.relocate_insert, h.dictionary, h.used, hentry]
  · simp only [Blueprint.add, h.used]
  · simp only [Blueprint.add, Cell.relocate, h.used, hmoved]

/-- Parts are added, in the one image and in the other. -/
theorem follows_foldl {ps : List Part} {q r : Placement} (h : q.Follows (base' - base) r)
    (hf : Free (base.plus q.used) (size ps)) (hf' : Free (base'.plus q.used) (size ps)) :
    (ps.foldl (add base) q).Follows (base' - base) (ps.foldl (add base') r) := by
  induction ps generalizing q r with
  | nil => exact h
  | cons p ps ih =>
    rw [size_cons] at hf hf'
    have hadd := h.add (p := p) (hf.mono (Nat.le_add_right _ _)) (hf'.mono (Nat.le_add_right _ _))
    rw [List.foldl_cons, List.foldl_cons]
    apply ih hadd
    · rw [used_add, ← Word.plus_plus]
      exact hf.drop
    · rw [used_add, ← Word.plus_plus]
      exact hf'.drop

theorem quitAddress_relocate (base base' : Word) :
    quitAddress base' = quitAddress base + (base' - base) := by
  rw [quitAddress, quitAddress, field_relocate base base', Word.plus_add]

/-- The image at one base is the image at another one, moved. -/
theorem idle_relocate (hf : Free base (size parts)) (hf' : Free base' (size parts)) :
    idle base' parts = (idle base parts).relocate (base' - base) := by
  have hfollows : (placed base parts).Follows (base' - base) (placed base' parts) := by
    rw [placed, placed]
    apply follows_foldl (follows_start base base')
    · exact (base.plus_zero).symm ▸ hf
    · exact (base'.plus_zero).symm ▸ hf'
  simp only [idle, State.running, State.relocate, hfollows.memory.eq, hfollows.dictionary,
    quitAddress_relocate base base', Word.plus_add, List.map_nil]

end Blueprint

namespace Image

open Blueprint

/-- An image may start at any address above the system variables. -/
theorem isValidBase_iff (base : Word) : isValidBase base = true ↔ 2 < base := decide_eq_true_iff

/-- The settings with a known encoding are accepted for the bases above the system variables. -/
theorem validate_iff {s : Settings} (h : (Encoding.ofName? s.encoding).isSome = true) :
    s.validate = .ok s ↔ 2 < s.base := by
  have hknown : ¬(Encoding.ofName? s.encoding).isNone = true := by
    obtain ⟨encoding, he⟩ := Option.isSome_iff_exists.mp h
    simp [he]
  rw [Settings.validate, if_neg hknown, ← isValidBase_iff]
  by_cases hb : isValidBase s.base = true <;> simp [hb]

/-- An image can be installed at every base that the settings accept, and at no other. What is installed
there are the parts of the blueprint one after another, without anything being printed, and the machine is
at the start of the outer interpreter. It is the image at the default base, moved. -/
theorem install_relocates (base : Word) :
    (∀ s : Settings, (Encoding.ofName? s.encoding).isSome = true → s.base = base →
      (s.validate = .ok s ↔ 2 < base)) ∧
    (2 < base → ∀ console : Console, ∃ n img m quit₀ m₀,
      (∀ fuel, n ≤ fuel → install fuel base { console } = (.ok img, m) ∧
        install fuel 16 { console } = (.ok ⟨16, quit₀⟩, m₀)) ∧
      img.base = base ∧ (console.KeepsTraceApart → m.console.output = console.output) ∧
      m.state.stack = [] ∧ m.state.returns = [] ∧ m.state.memory[stateAddress]? = some (.int 0) ∧
      m.state.ip = img.quit ∧ m.state.nip = img.quit + 1 ∧ img.quit = quit₀ + (base - 16) ∧
      m.state = idle base parts ∧ m.state = m₀.state.relocate (base - 16)) ∧
    (base ≤ 2 → ∀ fuel m, install fuel base m = (.error .base, m)) := by
  refine ⟨?_, ?_, ?_⟩
  · rintro s hs rfl
    exact validate_iff hs
  · intro hlt console
    have hbase := (isValidBase_iff base).mpr hlt
    have hdefault : isValidBase 16 = true := by decide
    -- the image may wrap around, but it is too short to come back to the system variables
    have hf : Free base (size parts) := free_of_isValidBase hbase (by decide)
    have hf₀ : Free 16 (size parts) := free_of_isValidBase hdefault (by decide)
    obtain ⟨n, m, hinstall, hstate, -, houtput⟩ := install_apply hbase console
    obtain ⟨k, m₀, hinstall₀, hstate₀, -⟩ := install_apply hdefault console
    refine ⟨max n k, ⟨base, quitAddress base⟩, m, quitAddress 16, m₀, ?_, rfl, fun h => (houtput h).2, ?_⟩
    · intro fuel hfuel
      exact ⟨hinstall fuel (by omega), hinstall₀ fuel (by omega)⟩
    · rw [hstate, hstate₀]
      exact ⟨rfl, rfl, (sound_parts hf).state, rfl, rfl, quitAddress_relocate 16 base, rfl,
        idle_relocate hf₀ hf⟩
  · intro hle fuel m
    have hbase : ¬isValidBase base = true := by
      rw [isValidBase_iff, Int64.not_lt]
      exact hle
    rw [install, if_neg hbase]

/-- Close to the largest address the image runs past it, and the outer interpreter lies at a negative
address. -/
theorem install_wraps_around :
    ∃ n img m, (∀ fuel, n ≤ fuel → install fuel 9223372036854775800 {} = (.ok img, m)) ∧
      img.quit = -9223372036854775604 ∧ m.state.nip = -9223372036854775603 := by
  obtain ⟨-, hinstall, -⟩ := install_relocates 9223372036854775800
  obtain ⟨n, img, m, quit₀, m₀, hfuel, -, -, -, -, -, -, hnip, hquit, -⟩ := hinstall (by decide) {}
  have hquit₀ : quit₀ = 228 := by
    obtain ⟨-, himage, -⟩ := install_result (hfuel n (Nat.le_refl n)).2
    have hdefault : (⟨16, quit₀⟩ : Image) = ⟨16, 228⟩ := himage.trans image_default
    exact (Image.mk.inj hdefault).2
  subst hquit₀
  refine ⟨n, img, m, fun fuel hn => (hfuel fuel hn).1, ?_, ?_⟩
  · rw [hquit]
    decide
  · rw [hnip, hquit]
    decide

end Image

end ForthMachine
