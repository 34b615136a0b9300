import ForthMachine.Proofs.Dictionary.Chain

namespace ForthMachine

open Memory State

namespace Dictionary

theorem codeIndex_cons (code c : Word) (rs : List Word) :
    (codeIndex (c :: rs).reverse)[code]? =
      if c = code then some rs.length else (codeIndex rs.reverse)[code]? := by
  rw [List.reverse_cons, codeIndex_concat, Std.ExtTreeMap.getElem?_insert]
  simp

/-- Among codes that are given newest first, one that is not among the newer ones is found where it
stands. -/
theorem codeIndex_append {code : Word} {newer older : List Word} (h : code ∉ newer) :
    (codeIndex (newer ++ code :: older).reverse)[code]? = some older.length := by
  induction newer with
  | nil => rw [List.nil_append, codeIndex_cons, if_pos rfl]
  | cons c newer ih =>
    rw [List.mem_cons, not_or] at h
    rw [List.cons_append, codeIndex_cons, if_neg (Ne.symm h.1)]
    exact ih h.2

/-- An entry is found by its code field unless a newer one has the same. -/
theorem codePosition?_of_history {D : Dictionary} {newer older : List (String × Word)}
    {entry : String × Word} (hh : D.history = newer ++ entry :: older)
    (hn : entry.2 ∉ newer.map Prod.snd) : D.codePosition? entry.2 = some older.length := by
  have hcodes : D.entries.toList.map (·.code) =
      (newer.map Prod.snd ++ entry.2 :: older.map Prod.snd).reverse := by
    rw [← List.map_cons, ← List.map_append, ← hh, history, List.map_map, ← List.map_reverse,
      List.reverse_reverse]
    rfl
  rw [codePosition?, D.codes_eq, hcodes, codeIndex_append hn, List.length_map]

end Dictionary

def Memory.Strung (M : Memory) : List Header → Prop
  | [] => True
  | x :: rest => M.Holds x.link (entryCells x.link (Header.linkTo rest) x.name []) ∧ M.Strung rest

/-- Memory and dictionary hold the same headers. Where these lie does not matter, as long as no two lie in
the same place. -/
structure Threaded (M : Memory) (D : Dictionary) (headers : List Header) : Prop where
  latest : M[latestAddress]? = some (Header.linkTo headers)
  strung : M.Strung headers
  nodup : (headers.map Header.link).Nodup
  history : D.history = headers.map Header.entry

section Walk

variable {M : Memory} {D : Dictionary} {h : Word} {headers newer older : List Header} {x : Header}

theorem Memory.Strung.append (hs : M.Strung (newer ++ older)) : M.Strung older := by
  induction newer with
  | nil => exact hs
  | cons y newer ih => exact ih hs.2

/-- Links and names are read from the cells of the headers alone. -/
theorem Memory.Strung.congr {M' : Memory} (hs : M.Strung headers)
    (h : ∀ x ∈ headers, ∀ a, x.Covers a → M'[a]? = M[a]?) : M'.Strung headers := by
  induction headers with
  | nil => trivial
  | cons x rest ih =>
    refine ⟨fun i hi => ?_, ih hs.2 fun y hy => h y (by simp [hy])⟩
    rw [h x (by simp) _ ⟨i, hi, rfl⟩]
    exact hs.1 i hi

theorem Memory.Chained.strung (hc : M.Chained headers) : M.Strung headers := by
  induction headers with
  | nil => trivial
  | cons x rest ih => exact ⟨hc.2.2.1, ih hc.2.2.2⟩

/-- Headers that lie one below the other are different ones. -/
theorem Memory.Chained.nodup (hc : M.Chained headers) : (headers.map Header.link).Nodup := by
  induction headers with
  | nil => exact List.nodup_nil
  | cons x rest ih =>
    rw [List.map_cons, List.nodup_cons]
    refine ⟨fun hmem => ?_, ih hc.2.2.2⟩
    obtain ⟨y, hy, hlink⟩ := List.mem_map.mp hmem
    have hlt := hc.2.1 y hy
    rw [hlink] at hlt
    omega

/-- A well-formed state is threaded. -/
theorem Linked.threaded (hw : Linked M D h headers) : Threaded M D headers :=
  ⟨hw.latest, hw.chained.strung, hw.chained.nodup, hw.history⟩

/-- Written addresses, none of them given twice, are no more than there are. -/
theorem Memory.length_le_of_written {addresses : List Word} (hnodup : addresses.Nodup)
    (hwritten : ∀ a ∈ addresses, M[a]?.isSome = true) : addresses.length ≤ M.size := by
  have hsubset : addresses ⊆ M.keys := by
    intro a ha
    rw [Std.ExtTreeMap.mem_keys, Std.ExtTreeMap.mem_iff_isSome_getElem?]
    exact hwritten a ha
  have hlen := List.Nodup.length_le_of_subset hnodup hsubset
  rwa [Std.ExtTreeMap.length_keys] at hlen

/-- Every header takes a cell of its own, so memory has at least as many cells as there are headers. -/
theorem Threaded.length_le (hw : Threaded M D headers) : headers.length ≤ M.size := by
  rw [← List.length_map Header.link]
  apply length_le_of_written hw.nodup
  intro a ha
  obtain ⟨x, hx, rfl⟩ := List.mem_map.mp ha
  obtain ⟨newer, older, rfl⟩ := List.append_of_mem hx
  rw [(holds_cons.mp hw.strung.append.1).1]
  rfl

/-- Newer headers lie elsewhere. -/
theorem Threaded.notMem_newer (hw : Threaded M D (newer ++ x :: older)) :
    x.link ∉ newer.map Header.link := by
  have hnodup := hw.nodup
  rw [List.map_append, List.map_cons, List.nodup_append] at hnodup
  exact fun hmem => hnodup.2.2 _ hmem _ (by simp) rfl

/-- A header leads to the entry that has as many entries before it as there are older headers. -/
theorem Threaded.headerPosition {st : State}
    (hw : Threaded st.memory st.dictionary (newer ++ x :: older)) :
    st.headerPosition x.link = .ok older.length := by
  have hcell := (holds_cons.mp hw.strung.append.1).1
  have hhistory : st.dictionary.history =
      newer.map Header.entry ++ x.entry :: older.map Header.entry := by
    rw [hw.history, List.map_append, List.map_cons]
  have hnew : x.entry.2 ∉ (newer.map Header.entry).map Prod.snd := by
    rw [List.map_map]
    intro hmem
    obtain ⟨y, hy, hcode⟩ := List.mem_map.mp hmem
    have hlink : y.link = x.link := by
      have hcode' : y.link + 3 = x.link + 3 := hcode
      simpa using hcode'
    exact hw.notMem_newer (List.mem_map.mpr ⟨y, hy, hlink⟩)
  have hpos := Dictionary.codePosition?_of_history hhistory hnew
  rw [List.length_map] at hpos
  have hcode : st.dictionary.codePosition? (x.link.plus 3) = some older.length := hpos
  simp [State.headerPosition, hcell, Cell.number?, hcode]

/-- The walk from a header on, by induction on the headers that are left; those in front of them have been
followed. -/
theorem Threaded.chainAux {st : State} {fuel : Nat}
    (hw : Threaded st.memory st.dictionary (newer ++ older)) (hf : older.length < fuel) :
    st.chainAux fuel (newer.reverse.map Header.link) (Header.linkTo older) =
      ((List.range older.length).reverse, none) := by
  induction older generalizing newer fuel with
  | nil =>
    obtain ⟨fuel, rfl⟩ : ∃ k, fuel = k + 1 := ⟨fuel - 1, by omega⟩
    rfl
  | cons x older ih =>
    obtain ⟨fuel, rfl⟩ : ∃ k, fuel = k + 1 := ⟨fuel - 1, by omega⟩
    have hnext : st.memory[x.link + 1]? = some (Header.linkTo older) :=
      (holds_cons.mp (holds_cons.mp hw.strung.append.1).2).1
    have hfresh : x.link ∉ newer.reverse.map Header.link := by
      rw [List.map_reverse, List.mem_reverse]
      exact hw.notMem_newer
    have hw' : Threaded st.memory st.dictionary (newer ++ [x] ++ older) := by
      rwa [List.append_assoc, List.singleton_append]
    have hrest := ih hw' (by simpa using hf)
    rw [List.reverse_append, List.reverse_singleton, List.singleton_append, List.map_cons] at hrest
    have hlink : Header.linkTo (x :: older) = .addr x.link := rfl
    rw [hlink, List.length_cons, List.range_succ, List.reverse_append]
    simp only [State.chainAux, reduceCtorEq, ↓reduceIte, Cell.address?, hfresh, hw.headerPosition, hnext,
      hrest]
    rfl

end Walk

def Header.Apart (headers : List Header) (h : Word) (n : Nat) : Prop :=
  ∀ x ∈ headers, ∀ a, x.Covers a →
    a ≠ hereAddress ∧ a ≠ latestAddress ∧ a ≠ stateAddress ∧ Outside h n a

/-- Memory and dictionary agree on the headers, and a block of `n` cells from `h` on can be filled without
harm to any of them. -/
def State.Agrees (st : State) (h : Word) (n : Nat) : Prop :=
  ∃ headers, Threaded st.memory st.dictionary headers ∧ Header.Apart headers h n

section Growth

variable {M : Memory} {D : Dictionary} {h : Word} {n : Nat} {headers : List Header}

theorem Threaded.mode (hw : Threaded M D headers) (ha : Header.Apart headers h n) (c : Cell) :
    Threaded (M.insert stateAddress c) D headers where
  latest := (getElem?_insert_ne _ _ (by decide)).trans hw.latest
  strung := hw.strung.congr fun x hx a hc => getElem?_insert_ne _ _ (ha x hx a hc).2.2.1.symm
  nodup := hw.nodup
  history := hw.history

/-- A definition that is entered apart from all headers becomes the newest one. -/
theorem Threaded.enter (hw : Threaded M D headers) (ha : Header.Apart headers h n) (name : String)
    {cells : List Cell} (flags : Flags) (hf : Free h n) (hn : 3 + cells.length ≤ n) :
    Threaded (M.enter h (Header.linkTo headers) name cells)
      (D.insert { name, code := h.plus 3, flags }) (⟨h, name⟩ :: headers) where
  latest := enter_latest (hf.mono hn)
  strung := by
    have hall : (M.enter h (Header.linkTo headers) name cells).Holds h
        (entryCells h (Header.linkTo headers) name [] ++ cells) := enter_holds (hf.mono hn)
    refine ⟨(holds_append.mp hall).1, hw.strung.congr fun x hx a hc => ?_⟩
    obtain ⟨hhere, hlatest, -, houtside⟩ := ha x hx a hc
    exact enter_outside hhere hlatest (houtside.mono hn)
  nodup := by
    rw [List.map_cons, List.nodup_cons]
    refine ⟨fun hmem => ?_, hw.nodup⟩
    obtain ⟨x, hx, hlink⟩ := List.mem_map.mp hmem
    -- the first cell of the block would be the first cell of an old header
    have houtside := (ha x hx x.link ⟨0, by omega, (Word.plus_zero _).symm⟩).2.2.2
    exact houtside 0 (by omega) ((Word.plus_zero h).trans hlink.symm)
  history := by
    rw [Dictionary.history_insert, hw.history]
    rfl

end Growth

theorem filterMap_range_getElem? {α : Type} (es : List α) :
    (List.range es.length).filterMap (es[·]?) = es := by
  induction es with
  | nil => rfl
  | cons e es ih =>
    rw [List.length_cons, List.range_succ_eq_map, List.filterMap_cons, List.filterMap_map]
    exact congrArg (e :: ·) ih

namespace State

variable {st : State}

/-- The walk along the headers finds all entries, newest first. -/
theorem chain_of_threaded {headers : List Header} (hw : Threaded st.memory st.dictionary headers) :
    st.chain = (st.dictionary.entries.toList.reverse, none) := by
  have hlen : headers.length = st.dictionary.entries.toList.length := by
    have hmap := congrArg List.length hw.history
    simpa [Dictionary.history] using hmap.symm
  have hwalk : st.chainAux (st.memory.size + 2) [] (Header.linkTo headers) =
      ((List.range headers.length).reverse, none) := by
    have hsize := hw.length_le
    have hall : Threaded st.memory st.dictionary ([] ++ headers) := hw
    exact hall.chainAux (by omega)
  have hentries : (List.range headers.length).reverse.filterMap (st.dictionary.entries[·]?) =
      st.dictionary.entries.toList.reverse := by
    rw [List.filterMap_reverse, hlen]
    simp only [← Array.getElem?_toList]
    rw [filterMap_range_getElem?]
  simp only [State.chain, hw.latest, hwalk, hentries]

/-- An entry that is added comes first. -/
theorem chain_of_insert {st' : State} {e : Entry} {headers headers' : List Header}
    (hw : Threaded st.memory st.dictionary headers) (hw' : Threaded st'.memory st'.dictionary headers')
    (hd : st'.dictionary = st.dictionary.insert e) : st'.chain = (e :: st.chain.1, none) := by
  rw [chain_of_threaded hw, chain_of_threaded hw', hd, Dictionary.entries_insert, List.reverse_append]
  rfl

/-- Above the headers of a well-formed state there is nothing that a definition could harm. -/
theorem WellFormed.agrees {h : Word} {n : Nat} (hw : st.WellFormed)
    (hh : ∃ d, st.memory[hereAddress]? = some d ∧ d.address? = some h)
    (hn : h.toInt + n ≤ Word.bound) : st.Agrees h n := by
  obtain ⟨h', headers, hw⟩ := hw
  obtain ⟨d, hd, hh⟩ := hh
  obtain rfl := eq_of_here hw.here hd hh
  exact ⟨headers, hw.toLinked.threaded,
    fun x hx a ha => ha.fixed (hw.chained.three_le hx) (hw.below x hx) hn⟩

/-- In a well-formed state the walk finds all entries, newest first, and meets no trap. -/
theorem WellFormed.chain (hw : st.WellFormed) :
    st.chain = (st.dictionary.entries.toList.reverse, none) := by
  obtain ⟨h, headers, hw⟩ := hw
  exact chain_of_threaded hw.toLinked.threaded

/-- The newest entry is the first one of the chain. -/
theorem WellFormed.latest (hw : st.WellFormed) {e : Entry} (he : st.chain.1.head? = some e) :
    ∃ i, State.latest st = .ok i st ∧ st.dictionary.entries[i]? = some e := by
  rw [hw.chain, List.head?_reverse] at he
  obtain ⟨h, headers, hw⟩ := hw
  cases headers with
  | nil =>
    have hnone : st.dictionary.entries.toList = [] := by
      simpa [Dictionary.history] using hw.history
    rw [hnone] at he
    cases he
  | cons x older =>
    have hlen : older.length + 1 = st.dictionary.entries.toList.length := by
      have hmap := congrArg List.length hw.history
      simpa [Dictionary.history] using hmap.symm
    have hthreaded : Threaded st.memory st.dictionary ([] ++ x :: older) := hw.toLinked.threaded
    have hpos := hthreaded.headerPosition
    have hlink : fetchAddress latestAddress st = .ok x.link st :=
      fetchAddress_of_getElem? hw.latest rfl
    refine ⟨older.length, by simp [State.latest, hlink, hpos], ?_⟩
    rw [← Array.getElem?_toList, ← he, List.getLast?_eq_getElem?, ← hlen, Nat.add_sub_cancel]

/-- A name stands for the first visible entry of the chain that has it. -/
theorem WellFormed.find? (hw : st.WellFormed) (name : String) :
    st.dictionary.find? name = st.chain.1.find? (Dictionary.isNamed name) := by
  rw [hw.chain, Dictionary.find?_eq]

end State

end ForthMachine
