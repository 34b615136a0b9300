import Mathlib.Data.List.Induction
import Mathlib.Data.List.Sort
import ForthMachine.Proofs.Dictionary.Observation

namespace ForthMachine.Dictionary

variable {d d' : Dictionary} {name : String} {code : Word}

def Like (d d' : Dictionary) : Prop := ∀ name, d.named name = d'.named name

/-- No code field stands under two names. -/
def Unambiguous (d : Dictionary) : Prop :=
  ∀ x ∈ d.entries.toList, ∀ y ∈ d.entries.toList, x.code = y.code → x.name = y.name

instance : DecidablePred Unambiguous := fun d => inferInstanceAs
  (Decidable (∀ x ∈ d.entries.toList, ∀ y ∈ d.entries.toList, x.code = y.code → x.name = y.name))

section Names

theorem filterMap_namePositions (rs : List Entry) (name : String) :
    (namePositions rs name).reverse.filterMap (rs.reverse[·]?) = rs.reverse.filter (·.name = name) := by
  induction rs with
  | nil => simp [namePositions, nameIndex]
  | cons e rs ih =>
    have hold : (namePositions rs name).reverse.filterMap ((e :: rs).reverse[·]?) =
        rs.reverse.filter (·.name = name) := by
      rw [← ih]
      apply List.filterMap_congr
      intro i hi
      have hlt := lt_of_mem_namePositions rs name i (List.mem_reverse.mp hi)
      rw [List.reverse_cons, List.getElem?_append_left (by simpa using hlt)]
    rw [namePositions_cons]
    by_cases hn : e.name = name
    · rw [if_pos hn, @List.reverse_cons _ rs.length, List.filterMap_append, hold]
      simp [hn]
    · rw [if_neg hn, hold]
      simp [hn]

/-- The entries with a name, read off the list of all entries. -/
theorem named_eq (d : Dictionary) (name : String) :
    d.named name = d.entries.toList.filter (·.name = name) := by
  have h := filterMap_namePositions d.entries.toList.reverse name
  rw [List.reverse_reverse] at h
  rw [named, positions_eq, ← h]
  simp only [Array.getElem?_toList]

theorem mem_named {e : Entry} : e ∈ d.named name ↔ e ∈ d.entries.toList ∧ e.name = name := by
  rw [named_eq, List.mem_filter, decide_eq_true_eq]

theorem Like.mem (h : d.Like d') {e : Entry} : e ∈ d.entries.toList ↔ e ∈ d'.entries.toList := by
  have hnamed : e ∈ d.named e.name ↔ e ∈ d'.named e.name := by rw [h]
  simpa [mem_named] using hnamed

theorem Like.unambiguous (h : d.Like d') (hd : d.Unambiguous) : d'.Unambiguous :=
  fun x hx y hy => hd x (h.mem.mpr hx) y (h.mem.mpr hy)

/-- Dictionaries that are the same have the same meaning for each name. -/
theorem Like.find? (h : d.Like d') (name : String) : d.find? name = d'.find? name := by
  have hfind (d : Dictionary) : d.find? name = (d.named name).reverse.find? fun e => !e.flags.hidden := by
    rw [find?_eq, named_eq, ← List.filter_reverse, List.find?_filter]
    congr 1
    funext e
    simp [isNamed]
  rw [hfind, hfind, h]

theorem mem_nameIndex (names : List String) (name : String) : name ∈ nameIndex names ↔ name ∈ names := by
  induction names using List.reverseRecOn with
  | nil => simp [nameIndex]
  | append_singleton names n ih =>
    rw [nameIndex_concat, Std.ExtTreeMap.mem_insert, ih, List.mem_append, List.mem_singleton,
      Std.LawfulEqCmp.compare_eq_iff_eq, or_comm, @eq_comm _ n]

/-- The keys are the names that have entries. -/
theorem mem_keys : name ∈ d.keys ↔ ∃ e, e ∈ d.named name := by
  rw [keys, Std.ExtTreeMap.mem_keys, d.names_eq, mem_nameIndex, List.mem_map]
  simp only [mem_named]

theorem Like.keys (h : d.Like d') : d.keys = d'.keys := by
  have hsorted (d : Dictionary) : d.keys.Pairwise (compare · · = .lt) := Std.ExtTreeMap.ordered_keys
  have hirrefl : Std.Irrefl fun a b : String => compare a b = .lt := ⟨fun a => by simp⟩
  have hantisymm : Std.Antisymm fun a b : String => compare a b = .lt := by
    refine ⟨fun a b hab hba => ?_⟩
    rw [Std.OrientedCmp.gt_of_lt hab] at hba
    cases hba
  apply (hsorted d).eq_of_mem_iff (hsorted d')
  intro name
  rw [mem_keys, mem_keys, h]

theorem filter_listing (d : Dictionary) (name : String) :
    d.listing.filter (·.name = name) = d.named name := by
  have hother (key : String) (hk : key ≠ name) : (d.named key).filter (·.name = name) = [] := by
    rw [List.filter_eq_nil_iff]
    intro e he
    rw [(mem_named.mp he).2, decide_eq_true_eq]
    exact hk
  have hsame : (d.named name).filter (·.name = name) = d.named name := by
    rw [named_eq, List.filter_filter, List.filter_congr]
    intro e _
    exact Bool.and_self _
  have hnil (keys : List String) (hk : name ∉ keys) :
      keys.flatMap (fun key => (d.named key).filter (·.name = name)) = [] := by
    rw [List.flatMap_eq_nil_iff]
    intro key hkey
    exact hother key fun heq => hk (heq ▸ hkey)
  rw [listing, List.filter_flatMap]
  by_cases hmem : name ∈ d.keys
  · -- the name comes once among the keys
    obtain ⟨before, after, hkeys⟩ := List.append_of_mem hmem
    have hnodup : d.keys.Nodup := Std.ExtTreeMap.nodup_keys
    rw [hkeys, List.nodup_middle, List.nodup_cons, List.mem_append, not_or] at hnodup
    rw [hkeys, List.flatMap_append, List.flatMap_cons, hsame, hnil before hnodup.1.1,
      hnil after hnodup.1.2, List.nil_append, List.append_nil]
  · have hnone : d.named name = [] := by
      apply List.eq_nil_iff_forall_not_mem.mpr
      intro e he
      exact hmem (mem_keys.mpr ⟨e, he⟩)
    rw [hnil d.keys hmem, hnone]

/-- Comparing the sorted listings compares the entries name by name. -/
theorem sameAs_iff : d.sameAs d' = true ↔ d.Like d' := by
  rw [sameAs, decide_eq_true_eq]
  constructor
  · intro h name
    rw [← filter_listing, h, filter_listing]
  · intro h
    rw [listing, listing, h.keys, funext h]

theorem entries_ofList (es : List Entry) : (ofList es).entries.toList = es := by
  have hfold (d : Dictionary) : (es.foldl insert d).entries.toList = d.entries.toList ++ es := by
    induction es generalizing d with
    | nil => simp
    | cons e es ih => rw [List.foldl_cons, ih, entries_insert, List.append_assoc, List.singleton_append]
  exact hfold ∅

/-- Putting the entries in order changes nothing that is asked by name. -/
theorem like_normalize (d : Dictionary) : d.Like d.normalize := by
  intro name
  rw [named_eq d.normalize, normalize, entries_ofList, filter_listing]

theorem named_insert (d : Dictionary) (e : Entry) (name : String) :
    (d.insert e).named name = d.named name ++ if e.name = name then [e] else [] := by
  rw [named_eq, named_eq, entries_insert, List.filter_append]
  by_cases hn : e.name = name <;> simp [hn]

/-- Adding one entry to both leaves them the same. -/
theorem Like.insert (h : d.Like d') (e : Entry) : (d.insert e).Like (d'.insert e) := by
  intro name
  rw [named_insert, named_insert, h]

end Names

section Codes

variable {f : Flags → Flags} {i j : Nat}

def amendLast (code : Word) (f : Flags → Flags) : List Entry → List Entry
  | [] => []
  | e :: es =>
    if e.code = code ∧ ∀ x ∈ es, x.code ≠ code then e.mapFlags f :: es else e :: amendLast code f es

/-- The entry that is changed is the last one of its code field. -/
theorem amendLast_append {older newer : List Entry} {e : Entry} (he : e.code = code)
    (hn : ∀ x ∈ newer, x.code ≠ code) :
    amendLast code f (older ++ e :: newer) = older ++ e.mapFlags f :: newer := by
  induction older with
  | nil => rw [List.nil_append, amendLast, if_pos ⟨he, hn⟩, List.nil_append]
  | cons x older ih =>
    have hlater : ¬(x.code = code ∧ ∀ y ∈ older ++ e :: newer, y.code ≠ code) :=
      fun h => h.2 e (by simp) he
    rw [List.cons_append, amendLast, if_neg hlater, ih, List.cons_append]

theorem amendLast_of_forall_ne {es : List Entry} (h : ∀ x ∈ es, x.code ≠ code) :
    amendLast code f es = es := by
  induction es with
  | nil => rfl
  | cons e es ih =>
    rw [List.forall_mem_cons] at h
    rw [amendLast, if_neg (fun hc => h.1 hc.1), ih h.2]

/-- The entries with the one name under which the code field stands are changed as all entries are. -/
theorem filter_amendLast {es : List Entry} (h : ∀ x ∈ es, x.code = code → x.name = name) :
    (amendLast code f es).filter (·.name = name) = amendLast code f (es.filter (·.name = name)) := by
  induction es with
  | nil => rfl
  | cons e es ih =>
    rw [List.forall_mem_cons] at h
    have hlater : (∀ x ∈ es, x.code ≠ code) ↔ ∀ x ∈ es.filter (·.name = name), x.code ≠ code := by
      constructor
      · exact fun hx x hmem => hx x (List.mem_filter.mp hmem).1
      · intro hx x hmem hc
        exact hx x (List.mem_filter.mpr ⟨hmem, by simpa using h.2 x hmem hc⟩) hc
    by_cases hn : e.name = name
    · rw [List.filter_cons_of_pos (by simpa using hn), amendLast, amendLast]
      by_cases hlast : e.code = code ∧ ∀ x ∈ es, x.code ≠ code
      · rw [if_pos hlast, if_pos ⟨hlast.1, hlater.mp hlast.2⟩,
          List.filter_cons_of_pos (by simp [Entry.mapFlags, hn])]
      · rw [if_neg hlast, if_neg (fun h => hlast ⟨h.1, hlater.mpr h.2⟩),
          List.filter_cons_of_pos (by simpa using hn), ih h.2]
    · have hc : e.code ≠ code := fun hc => hn (h.1 hc)
      rw [amendLast, if_neg (fun hand => hc hand.1), List.filter_cons_of_neg (by simpa using hn),
        List.filter_cons_of_neg (by simpa using hn), ih h.2]

theorem filter_amendLast_of_ne {es : List Entry} (h : ∀ x ∈ es, x.code = code → x.name ≠ name) :
    (amendLast code f es).filter (·.name = name) = es.filter (·.name = name) := by
  induction es with
  | nil => rfl
  | cons e es ih =>
    rw [List.forall_mem_cons] at h
    rw [amendLast]
    split
    · rename_i hlast
      have hn := h.1 hlast.1
      rw [List.filter_cons_of_neg (by simp [Entry.mapFlags, hn]),
        List.filter_cons_of_neg (by simp [hn])]
    · rw [List.filter_cons, List.filter_cons, ih h.2]

/-- A code field is found at the newest entry that has it. -/
theorem codePosition?_cases (d : Dictionary) (code : Word) :
    (∃ older e newer, d.entries.toList = older ++ e :: newer ∧ e.code = code ∧
      (∀ x ∈ newer, x.code ≠ code) ∧ d.codePosition? code = some older.length) ∨
    (∀ x ∈ d.entries.toList, x.code ≠ code) ∧ d.codePosition? code = none := by
  generalize hrs : d.entries.toList.reverse = rs
  have hentries : d.entries.toList = rs.reverse := by rw [← hrs, List.reverse_reverse]
  have hcodes : d.codePosition? code = (codeIndex (rs.map (·.code)).reverse)[code]? := by
    rw [codePosition?, d.codes_eq, hentries, List.map_reverse]
  rw [hentries, hcodes]
  clear hrs hentries hcodes
  induction rs with
  | nil => exact .inr ⟨by simp, by simp [codeIndex]⟩
  | cons e rs ih =>
    rw [List.map_cons, codeIndex_cons]
    by_cases hc : e.code = code
    · rw [if_pos hc]
      exact .inl ⟨rs.reverse, e, [], by simp, hc, by simp, by simp⟩
    · rw [if_neg hc]
      rcases ih with ⟨older, x, newer, hsplit, hx, hnew, hpos⟩ | ⟨hnone, hpos⟩
      · refine .inl ⟨older, x, newer ++ [e], ?_, hx, ?_, hpos⟩
        · rw [List.reverse_cons, hsplit, List.append_assoc, List.cons_append]
        · simpa [or_imp, forall_and] using ⟨hnew, hc⟩
      · refine .inr ⟨?_, hpos⟩
        simpa [or_imp, forall_and] using ⟨by simpa using hnone, hc⟩

theorem byCode?_eq (d : Dictionary) (code : Word) :
    d.byCode? code = d.entries.toList.reverse.find? (·.code = code) := by
  rcases codePosition?_cases d code with ⟨older, e, newer, hentries, he, hnew, hpos⟩ | ⟨hnone, hpos⟩
  · have hat : d.entries[older.length]? = some e := by
      rw [← Array.getElem?_toList, hentries]
      simp
    have hnewer : newer.reverse.find? (·.code = code) = none := by
      rw [List.find?_eq_none]
      simpa using hnew
    rw [byCode?, hpos, Option.bind_some, hat, hentries, List.reverse_append, List.reverse_cons,
      List.append_assoc, List.find?_append, hnewer]
    simp [he]
  · rw [byCode?, hpos, Option.bind_none, eq_comm, List.find?_eq_none]
    simpa using hnone

/-- The entry that a code field belongs to can be told from the entries with its name. -/
theorem Unambiguous.byCode? (hd : d.Unambiguous) {e : Entry} (he : e ∈ d.entries.toList) :
    d.byCode? e.code = (d.named e.name).reverse.find? (·.code = e.code) := by
  rw [byCode?_eq, named_eq, ← List.filter_reverse, List.find?_filter, ← List.head?_filter,
    ← List.head?_filter]
  congr 1
  apply List.filter_congr
  intro x hx
  have hname : x.code = e.code → x.name = e.name := hd x (List.mem_reverse.mp hx) e he
  simpa using hname

/-- Where every code field stands under one name, both find the same entry for it. -/
theorem Like.byCode? (h : d.Like d') (hd : d.Unambiguous) (code : Word) :
    d.byCode? code = d'.byCode? code := by
  by_cases hex : ∃ e ∈ d.entries.toList, e.code = code
  · obtain ⟨e, he, rfl⟩ := hex
    rw [hd.byCode? he, (h.unambiguous hd).byCode? (h.mem.mp he), h]
  · have hnone (d : Dictionary) (hd : ¬∃ e ∈ d.entries.toList, e.code = code) : d.byCode? code = none := by
      rw [byCode?_eq, List.find?_eq_none]
      simpa using hd
    rw [hnone d hex, hnone d']
    rintro ⟨e, he, hc⟩
    exact hex ⟨e, h.mem.mpr he, hc⟩

theorem Like.codePosition? (h : d.Like d') (hd : d.Unambiguous) (code : Word) :
    d.codePosition? code = none ∧ d'.codePosition? code = none ∨
      ∃ i j, d.codePosition? code = some i ∧ d'.codePosition? code = some j ∧
        d.entries[i]? = d'.entries[j]? := by
  have hsame := h.byCode? hd code
  rcases codePosition?_cases d code with ⟨older, e, newer, hentries, he, -, hi⟩ | ⟨hnone, hi⟩
  · rcases codePosition?_cases d' code with ⟨_, _, _, _, _, _, hj⟩ | ⟨hnone', -⟩
    · refine .inr ⟨_, _, hi, hj, ?_⟩
      rwa [Dictionary.byCode?, Dictionary.byCode?, hi, hj] at hsame
    · refine absurd he (hnone' e (h.mem.mp ?_))
      rw [hentries]
      simp
  · rcases codePosition?_cases d' code with ⟨older, e, newer, hentries, he, -, -⟩ | ⟨-, hj⟩
    · refine absurd he (hnone e (h.mem.mpr ?_))
      rw [hentries]
      simp
    · exact .inl ⟨hi, hj⟩

/-- Changing the flags of the entry that a code field belongs to, name by name. -/
theorem Unambiguous.named_modifyFlags (hd : d.Unambiguous) (hi : d.codePosition? code = some i)
    (f : Flags → Flags) (name : String) :
    (d.modifyFlags i f).named name = amendLast code f (d.named name) := by
  rcases codePosition?_cases d code with ⟨older, e, newer, hentries, he, hnew, hpos⟩ | ⟨-, hpos⟩
  · cases hpos.symm.trans hi
    have hamend : (d.modifyFlags older.length f).entries.toList = amendLast code f d.entries.toList := by
      rw [entries_modifyFlags, hentries, amendLast_append he hnew, List.modify_eq_take_cons_drop (by simp)]
      simp
    have hmem : e ∈ d.entries.toList := by
      rw [hentries]
      simp
    -- all entries of the code field have the name of this one
    have hname : ∀ x ∈ d.entries.toList, x.code = code → x.name = e.name :=
      fun x hx hc => hd x hx e hmem (hc.trans he.symm)
    rw [named_eq, named_eq, hamend]
    by_cases hn : e.name = name
    · exact filter_amendLast fun x hx hc => (hname x hx hc).trans hn
    · have hne : ∀ x ∈ d.entries.toList, x.code = code → x.name ≠ name :=
        fun x hx hc hxn => hn ((hname x hx hc).symm.trans hxn)
      rw [filter_amendLast_of_ne hne, amendLast_of_forall_ne]
      intro x hx hc
      rw [List.mem_filter, decide_eq_true_eq] at hx
      exact hne x hx.1 hc hx.2
  · cases hpos.symm.trans hi

/-- Where every code field stands under one name, changing flags through it leaves the dictionaries the
same. -/
theorem Like.modifyFlags (h : d.Like d') (hd : d.Unambiguous) (hi : d.codePosition? code = some i)
    (hj : d'.codePosition? code = some j) (f : Flags → Flags) :
    (d.modifyFlags i f).Like (d'.modifyFlags j f) := by
  intro name
  rw [hd.named_modifyFlags hi, (h.unambiguous hd).named_modifyFlags hj, h]

end Codes

end ForthMachine.Dictionary
