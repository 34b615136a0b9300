import ForthMachine.Dictionary

namespace ForthMachine.Dictionary

def isNamed (name : String) (e : Entry) : Bool := e.name = name && !e.flags.hidden

/-- The entries determine the dictionary, because its indexes are computed from them. -/
theorem ext_entries {d e : Dictionary} (h : d.entries = e.entries) : d = e := by
  obtain ⟨entries, names, codes, hn, hc⟩ := d
  obtain ⟨entries', names', codes', hn', hc'⟩ := e
  obtain rfl : entries = entries' := h
  -- the indexes are functions of the entries
  obtain rfl : names = names' := hn.trans hn'.symm
  obtain rfl : codes = codes' := hc.trans hc'.symm
  rfl

@[simp] theorem entries_insert (d : Dictionary) (e : Entry) :
    (d.insert e).entries.toList = d.entries.toList ++ [e] := by
  simp [insert]

@[simp] theorem size_insert (d : Dictionary) (e : Entry) : (d.insert e).size = d.size + 1 := by
  simp [insert, size]

@[simp] theorem entries_modifyFlags (d : Dictionary) (i : Nat) (f : Flags → Flags) :
    (d.modifyFlags i f).entries.toList = d.entries.toList.modify i (Entry.mapFlags f) := by
  simp [modifyFlags]

/-- Flags that are changed right after an entry was added might as well have been in it. -/
theorem modifyFlags_insert (d : Dictionary) (e : Entry) (f : Flags → Flags) :
    (d.insert e).modifyFlags d.size f = d.insert (e.mapFlags f) := by
  apply ext_entries
  apply Array.toList_inj.mp
  rw [entries_modifyFlags, entries_insert, entries_insert]
  have hs : d.size = d.entries.toList.length := by simp [size]
  rw [hs, List.modify_eq_take_cons_drop (by simp)]
  simp

/-- A new entry hides the older ones with its code field. -/
theorem codePosition?_insert (d : Dictionary) (e : Entry) (code : Word) :
    (d.insert e).codePosition? code = if e.code = code then some d.size else d.codePosition? code := by
  simp [codePosition?, insert, Std.ExtTreeMap.getElem?_insert]

def namePositions (rs : List Entry) (name : String) : List Nat :=
  (nameIndex (rs.reverse.map (·.name))).getD name []

theorem namePositions_cons (e : Entry) (rs : List Entry) (name : String) :
    namePositions (e :: rs) name =
      if e.name = name then rs.length :: namePositions rs name else namePositions rs name := by
  rw [namePositions, List.reverse_cons, List.map_append, List.map_singleton, nameIndex_concat,
    Std.ExtTreeMap.getD_insert]
  by_cases h : e.name = name <;> simp [h, namePositions]

theorem lt_of_mem_namePositions (rs : List Entry) (name : String) :
    ∀ i ∈ namePositions rs name, i < rs.length := by
  induction rs with
  | nil => simp [namePositions, nameIndex]
  | cons e rs ih =>
    intro i hi
    rw [namePositions_cons] at hi
    simp only [List.length_cons]
    split at hi
    · rcases List.mem_cons.mp hi with rfl | hi
      · omega
      · have := ih i hi
        omega
    · have := ih i hi
      omega

def visibleAt (es : List Entry) (is : List Nat) : Option Entry :=
  (is.find? fun i => es[i]?.any fun e => !e.flags.hidden).bind fun i => es[i]?

theorem visibleAt_congr {es es' : List Entry} {is : List Nat} (h : ∀ i ∈ is, es[i]? = es'[i]?) :
    visibleAt es is = visibleAt es' is := by
  induction is with
  | nil => rfl
  | cons i is ih =>
    have hi := h i (by simp)
    have hrest := ih fun j hj => h j (by simp [hj])
    unfold visibleAt at hrest ⊢
    simp only [List.find?_cons, hi]
    split
    · simpa using hi
    · exact hrest

/-- The search through the positions of a name ends at the newest visible entry that has it. -/
theorem visibleAt_namePositions (rs : List Entry) (name : String) :
    visibleAt rs.reverse (namePositions rs name) = rs.find? (isNamed name) := by
  induction rs with
  | nil => simp [visibleAt, namePositions, nameIndex]
  | cons e rs ih =>
    have hold : visibleAt (e :: rs).reverse (namePositions rs name) = rs.find? (isNamed name) := by
      rw [← ih]
      apply visibleAt_congr
      intro i hi
      have := lt_of_mem_namePositions rs name i hi
      rw [List.reverse_cons, List.getElem?_append_left (by simpa using this)]
    have hlast : ((e :: rs).reverse)[rs.length]? = some e := by simp
    rw [namePositions_cons, List.find?_cons]
    by_cases hn : e.name = name
    · by_cases hh : e.flags.hidden
      · rw [if_pos hn, visibleAt, List.find?_cons]
        simp only [hlast, Option.any_some, hh, Bool.not_true, isNamed, Bool.and_false]
        exact hold
      · rw [if_pos hn, visibleAt, List.find?_cons]
        simp [hn, hh, isNamed]
    · rw [if_neg hn, hold]
      simp [isNamed, hn]

/-- The index of names lists the positions of a name among the entries. -/
theorem positions_eq (d : Dictionary) (name : String) :
    d.positions name = namePositions d.entries.toList.reverse name := by
  rw [positions, d.names_eq, namePositions, List.reverse_reverse]

/-- A name stands for the newest visible entry that has it. -/
theorem find?_eq (d : Dictionary) (name : String) :
    d.find? name = d.entries.toList.reverse.find? (isNamed name) := by
  have hvis : d.isVisible = fun i => d.entries.toList[i]?.any fun e => !e.flags.hidden := by
    funext i
    rw [isVisible, Array.getElem?_toList]
    cases d.entries[i]? <;> rfl
  rw [← visibleAt_namePositions, List.reverse_reverse, find?, findPosition?, positions_eq, hvis, visibleAt]
  simp only [Array.getElem?_toList]

/-- A new entry that is visible shadows the older ones of its name. -/
theorem find?_insert (d : Dictionary) (e : Entry) (name : String) :
    (d.insert e).find? name = if isNamed name e then some e else d.find? name := by
  rw [find?_eq, find?_eq, entries_insert, List.reverse_append, List.reverse_singleton,
    List.singleton_append, List.find?_cons]
  cases isNamed name e <;> rfl

end ForthMachine.Dictionary
