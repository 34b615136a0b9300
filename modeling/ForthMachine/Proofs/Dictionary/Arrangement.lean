import Mathlib.Data.List.Find
import ForthMachine.Proofs.Dictionary.Sameness

namespace ForthMachine.Dictionary

variable {items es : List Entry} {tags : List Nat} {p : Entry → Bool} {e : Entry} {i j k : Nat}

section Newest

def newest? (p : Entry → Bool) (es : List Entry) : Option Nat :=
  es.zipIdx.foldl (fun found (e, i) => if p e then some i else found) none

theorem newest?_concat (p : Entry → Bool) (es : List Entry) (e : Entry) :
    newest? p (es ++ [e]) = if p e then some es.length else newest? p es := by
  simp [newest?, List.zipIdx_append]

theorem newest?_eq_none_iff : newest? p es = none ↔ ∀ e ∈ es, p e = false := by
  induction es using List.reverseRecOn with
  | nil => simp [newest?]
  | append_singleton es e ih =>
    rw [newest?_concat]
    cases he : p e <;> simp [ih, or_imp, forall_and, he]

/-- The newest entry with a property has it, and no later entry does. -/
theorem newest?_eq_some_iff : newest? p es = some i ↔
    (∃ e, es[i]? = some e ∧ p e = true) ∧ ∀ j e, i < j → es[j]? = some e → p e = false := by
  induction es using List.reverseRecOn with
  | nil => simp [newest?]
  | append_singleton es x ih =>
    have hlast : (es ++ [x])[es.length]? = some x := List.getElem?_concat_length
    rw [newest?_concat]
    split
    · -- the last entry has the property, and nothing comes after it
      constructor
      · intro h
        cases h
        grind
      · grind
    · -- the last entry makes no difference
      rw [ih]
      grind

/-- The search through the positions of a name ends at the position of the newest visible entry. -/
theorem findPosition?_eq (d : Dictionary) (name : String) :
    d.findPosition? name = newest? (isNamed name) d.entries.toList := by
  have hvis : d.isVisible = fun i => d.entries.toList[i]?.any fun e => !e.flags.hidden := by
    funext i
    rw [isVisible, Array.getElem?_toList]
    cases d.entries[i]? <;> rfl
  rw [findPosition?, positions_eq, hvis]
  generalize d.entries.toList = es
  clear hvis
  induction es using List.reverseRecOn with
  | nil => simp [namePositions, nameIndex, newest?]
  | append_singleton es e ih =>
    have hold : (namePositions es.reverse name).find?
          (fun i => (es ++ [e])[i]?.any fun e => !e.flags.hidden) =
        (namePositions es.reverse name).find? (fun i => es[i]?.any fun e => !e.flags.hidden) := by
      apply List.find?_congr
      intro i hi
      have hlt := lt_of_mem_namePositions _ _ i hi
      rw [List.getElem?_append_left (by simpa using hlt)]
    rw [newest?_concat, ← ih, List.reverse_append, List.reverse_singleton, List.singleton_append,
      namePositions_cons]
    by_cases hn : e.name = name
    · rw [if_pos hn, List.find?_cons, hold, List.length_reverse, List.getElem?_concat_length]
      cases hh : e.flags.hidden <;> simp [isNamed, hn, hh]
    · rw [if_neg hn, hold]
      simp [isNamed, hn]

/-- The index of code fields gives the position of the newest entry. -/
theorem codePosition?_eq (d : Dictionary) (code : Word) :
    d.codePosition? code = newest? (·.code = code) d.entries.toList := by
  rw [codePosition?, d.codes_eq]
  induction d.entries.toList using List.reverseRecOn with
  | nil => simp [codeIndex, newest?]
  | append_singleton es e ih =>
    rw [List.map_append, List.map_singleton, codeIndex_concat, Std.ExtTreeMap.getElem?_insert,
      newest?_concat, ih]
    simp

end Newest

/-- Two entries that one lookup can be about. -/
def Akin (x y : Entry) : Prop := x.name = y.name ∨ x.code = y.code

theorem akin_of_name (name : String) (x y : Entry) (hx : decide (x.name = name) = true)
    (hy : decide (y.name = name) = true) : Akin x y := by
  simp only [decide_eq_true_eq] at hx hy
  exact .inl (hx.trans hy.symm)

theorem akin_of_isNamed (name : String) (x y : Entry) (hx : isNamed name x = true)
    (hy : isNamed name y = true) : Akin x y :=
  akin_of_name name x y (Bool.and_elim_left hx) (Bool.and_elim_left hy)

theorem akin_of_code (code : Word) (x y : Entry) (hx : decide (x.code = code) = true)
    (hy : decide (y.code = code) = true) : Akin x y := by
  simp only [decide_eq_true_eq] at hx hy
  exact .inr (hx.trans hy.symm)

/-- The entries `es` are the items in another order, where `tags` gives the number of the item that stands
at each position. Akin items keep their order. -/
structure Arranges (items es : List Entry) (tags : List Nat) : Prop where
  perm : tags.Perm (List.range items.length)
  entries : es.map some = tags.map (items[·]?)
  ordered : tags.Pairwise fun i j => ∀ x y, items[i]? = some x → items[j]? = some y → Akin x y → i < j

namespace Arranges

theorem nil : Arranges [] [] [] := ⟨.nil, rfl, .nil⟩

theorem getElem? (h : Arranges items es tags) (hk : tags[k]? = some i) : es[k]? = items[i]? := by
  have hat := congrArg (·[k]?) h.entries
  simp only [List.getElem?_map, hk, Option.map_some] at hat
  obtain ⟨e, he, hi⟩ := Option.map_eq_some_iff.mp hat
  rw [he, ← hi]

theorem length_tags (h : Arranges items es tags) : tags.length = items.length := by
  simpa using h.perm.length_eq

theorem length_eq (h : Arranges items es tags) : es.length = items.length := by
  have hlength := congrArg List.length h.entries
  simpa [h.length_tags] using hlength

/-- Every entry that is there is one of the items. -/
theorem exists_tag (h : Arranges items es tags) (he : es[k]? = some e) :
    ∃ i, tags[k]? = some i ∧ items[i]? = some e := by
  have hlt : k < tags.length := by
    rw [h.length_tags, ← h.length_eq]
    exact (List.getElem?_eq_some_iff.mp he).1
  refine ⟨tags[k], List.getElem?_eq_getElem hlt, ?_⟩
  rw [← h.getElem? (List.getElem?_eq_getElem hlt), he]

/-- Every item is still there, at the position at which its number stands. -/
theorem exists_position (h : Arranges items es tags) (he : items[i]? = some e) :
    ∃ k : Nat, tags[k]? = some i ∧ es[k]? = some e := by
  have hlt : i < items.length := (List.getElem?_eq_some_iff.mp he).1
  have hmem : i ∈ tags := h.perm.mem_iff.mpr (List.mem_range.mpr hlt)
  obtain ⟨k, hk⟩ := List.mem_iff_getElem?.mp hmem
  exact ⟨k, hk, (h.getElem? hk).trans he⟩

theorem mem_iff (h : Arranges items es tags) : e ∈ es ↔ e ∈ items := by
  rw [List.mem_iff_getElem?, List.mem_iff_getElem?]
  constructor
  · rintro ⟨k, hk⟩
    obtain ⟨i, -, hi⟩ := h.exists_tag hk
    exact ⟨i, hi⟩
  · rintro ⟨i, hi⟩
    obtain ⟨k, -, hk⟩ := h.exists_position hi
    exact ⟨k, hk⟩

theorem lt_of_mem (h : Arranges items es tags) (hi : i ∈ tags) : i < items.length :=
  List.mem_range.mp (h.perm.mem_iff.mp hi)

/-- No item stands at two positions. -/
theorem nodup (h : Arranges items es tags) : tags.Nodup := h.perm.nodup_iff.mpr List.nodup_range

/-- An item that comes is the last one in either order. -/
theorem insert (h : Arranges items es tags) (e : Entry) :
    Arranges (items ++ [e]) (es ++ [e]) (tags ++ [items.length]) := by
  have hold (i : Nat) (hi : i ∈ tags) : (items ++ [e])[i]? = items[i]? :=
    List.getElem?_append_left (h.lt_of_mem hi)
  refine ⟨?_, ?_, ?_⟩
  · rw [List.length_append, List.length_singleton, List.range_succ]
    exact h.perm.append_right _
  · rw [List.map_append, h.entries, List.map_append, List.map_congr_left hold]
    simp
  · rw [List.pairwise_append]
    refine ⟨?_, List.pairwise_singleton _ _, ?_⟩
    · refine h.ordered.imp_of_mem fun hi hj hord => ?_
      rw [hold _ hi, hold _ hj]
      exact hord
    · -- every number that was there is below the new one
      intro i hi j hj _ _ _ _ _
      rw [List.mem_singleton.mp hj]
      exact h.lt_of_mem hi

/-- Changing the flags of the same item in either order. -/
theorem modify (h : Arranges items es tags) (hk : tags[k]? = some i) (f : Flags → Flags) :
    Arranges (items.modify i (Entry.mapFlags f)) (es.modify k (Entry.mapFlags f)) tags := by
  refine ⟨?_, ?_, ?_⟩
  · rw [List.length_modify]
    exact h.perm
  · apply List.ext_getElem?
    intro l
    have hat := congrArg (·[l]?) h.entries
    simp only [List.getElem?_map] at hat ⊢
    cases hl : tags[l]? with
    | none =>
      rw [hl] at hat
      simpa [List.getElem?_modify] using hat
    | some j =>
      have hsame : k = l ↔ i = j := by
        constructor
        · rintro rfl
          exact Option.some.inj (hk.symm.trans hl)
        · rintro rfl
          have hlt : k < tags.length := (List.getElem?_eq_some_iff.mp hk).1
          exact (List.getElem?_inj hlt h.nodup).mp (hk.trans hl.symm)
      rw [hl] at hat
      obtain ⟨e, he, hj⟩ := Option.map_eq_some_iff.mp hat
      simp [List.getElem?_modify, he, ← hj, hsame]
  · -- names and code fields are as before
    have hkin {j : Nat} {x : Entry} (hx : (items.modify i (Entry.mapFlags f))[j]? = some x) :
        ∃ y, items[j]? = some y ∧ y.name = x.name ∧ y.code = x.code := by
      rw [List.getElem?_modify] at hx
      obtain ⟨y, hy, rfl⟩ := Option.map_eq_some_iff.mp hx
      refine ⟨y, hy, ?_⟩
      split <;> exact ⟨rfl, rfl⟩
    refine h.ordered.imp fun hord x y hx hy hakin => ?_
    obtain ⟨x', hx', hxn, hxc⟩ := hkin hx
    obtain ⟨y', hy', hyn, hyc⟩ := hkin hy
    refine hord x' y' hx' hy' ?_
    rwa [Akin, hxn, hxc, hyn, hyc]

/-- The newest entry among entries that are akin is the newest item among them. -/
theorem newest? (h : Arranges items es tags) (hp : ∀ x y, p x = true → p y = true → Akin x y) :
    Option.Rel (fun k i => tags[k]? = some i) (newest? p es) (newest? p items) := by
  cases hn : Dictionary.newest? p es with
  | none =>
    have hnone : Dictionary.newest? p items = none := by
      rw [newest?_eq_none_iff] at hn ⊢
      exact fun e he => hn e (h.mem_iff.mpr he)
    rw [hnone]
    exact .none
  | some k =>
    obtain ⟨⟨e, he, hpe⟩, hlater⟩ := newest?_eq_some_iff.mp hn
    obtain ⟨i, hk, hi⟩ := h.exists_tag he
    have hsome : Dictionary.newest? p items = some i := by
      rw [newest?_eq_some_iff]
      refine ⟨⟨e, hi, hpe⟩, fun j y hlt hj => ?_⟩
      obtain ⟨l, hl, hy⟩ := h.exists_position hj
      apply Bool.eq_false_iff.mpr
      intro hpy
      rcases Nat.lt_trichotomy k l with hkl | rfl | hlk
      · exact Bool.false_ne_true ((hlater l y hkl hy).symm.trans hpy)
      · cases hk.symm.trans hl
        exact Nat.lt_irrefl i hlt
      · have hord := List.pairwise_iff_getElem.mp h.ordered l k (List.getElem?_eq_some_iff.mp hl).1
          (List.getElem?_eq_some_iff.mp hk).1 hlk
        rw [(List.getElem?_eq_some_iff.mp hl).2, (List.getElem?_eq_some_iff.mp hk).2] at hord
        exact Nat.lt_asymm hlt (hord y e hj hi (hp y e hpy hpe))
    rw [hsome]
    exact .some hk

theorem map_filter_range (p : Entry → Bool) (items : List Entry) :
    ((List.range items.length).filter fun i => items[i]?.any p).map (items[·]?) =
      (items.filter p).map some := by
  induction items using List.reverseRecOn with
  | nil => rfl
  | append_singleton items e ih =>
    have hold (i : Nat) (hi : i ∈ List.range items.length) : (items ++ [e])[i]? = items[i]? :=
      List.getElem?_append_left (List.mem_range.mp hi)
    have hfilter : (List.range items.length).filter (fun i => (items ++ [e])[i]?.any p) =
        (List.range items.length).filter fun i => items[i]?.any p :=
      List.filter_congr fun i hi => by rw [hold i hi]
    have hmap : ((List.range items.length).filter fun i => items[i]?.any p).map ((items ++ [e])[·]?) =
        (items.filter p).map some := by
      rw [← ih]
      exact List.map_congr_left fun i hi => hold i (List.mem_filter.mp hi).1
    rw [List.length_append, List.length_singleton, List.range_succ, List.filter_append, List.map_append,
      hfilter, hmap, List.filter_append, List.map_append]
    cases hp : p e <;> simp [hp]

/-- Akin entries are listed in the same order. -/
theorem filter_eq (h : Arranges items es tags) (hp : ∀ x y, p x = true → p y = true → Akin x y) :
    es.filter p = items.filter p := by
  -- the numbers of the entries that are kept are sorted, so they come as in the list of items
  have htags : tags.filter (fun i => items[i]?.any p) =
      (List.range items.length).filter fun i => items[i]?.any p := by
    have hsorted : (tags.filter fun i => items[i]?.any p).Pairwise (· < ·) := by
      refine (h.ordered.filter _).imp_of_mem fun hi hj hord => ?_
      obtain ⟨x, hx, hpx⟩ := (Option.any_eq_true p _).mp (List.mem_filter.mp hi).2
      obtain ⟨y, hy, hpy⟩ := (Option.any_eq_true p _).mp (List.mem_filter.mp hj).2
      exact hord x y hx hy (hp x y hpx hpy)
    apply hsorted.eq_of_mem_iff (List.pairwise_lt_range.filter _)
    intro i
    rw [List.mem_filter, List.mem_filter, h.perm.mem_iff]
  have hmap : (es.filter p).map some = (items.filter p).map some := by
    calc (es.filter p).map some
        = (es.map some).filter (Option.any p) := by
          rw [List.filter_map]
          rfl
      _ = (tags.filter fun i => items[i]?.any p).map (items[·]?) := by
          rw [h.entries, List.filter_map]
          rfl
      _ = (items.filter p).map some := by rw [htags, map_filter_range]
  exact List.map_injective_iff.mpr (Option.some_injective _) hmap

end Arranges

def Unmixed (items : List Entry) : Prop := ∀ x ∈ items, ∀ y ∈ items, x.code = y.code → x.name = y.name

instance : DecidablePred Unmixed := fun items =>
  inferInstanceAs (Decidable (∀ x ∈ items, ∀ y ∈ items, x.code = y.code → x.name = y.name))

/-- The numbers of the items, in the order of some names. -/
def tagsOf (names : List String) (items : List Entry) : List Nat :=
  names.flatMap fun name => (List.range items.length).filter fun i => items[i]?.any (·.name = name)

theorem mem_tagsOf {names : List String} :
    i ∈ tagsOf names items ↔ ∃ e, items[i]? = some e ∧ e.name ∈ names := by
  simp only [tagsOf, List.mem_flatMap, List.mem_filter, List.mem_range, Option.any_eq_true,
    decide_eq_true_eq]
  constructor
  · rintro ⟨name, hname, -, e, he, rfl⟩
    exact ⟨e, he, hname⟩
  · rintro ⟨e, he, hname⟩
    exact ⟨e.name, hname, (List.getElem?_eq_some_iff.mp he).1, e, he, rfl⟩

/-- Items with different names are apart, those with one name are in order. -/
theorem pairwise_tagsOf {names : List String} (hn : names.Nodup) (hu : Unmixed items) :
    (tagsOf names items).Pairwise fun i j =>
      i ≠ j ∧ ∀ x y, items[i]? = some x → items[j]? = some y → Akin x y → i < j := by
  rw [tagsOf, List.pairwise_flatMap]
  refine ⟨fun name _ => ?_, hn.imp fun hne i hi j hj => ?_⟩
  · refine (List.pairwise_lt_range.filter _).imp fun hlt => ?_
    exact ⟨Nat.ne_of_lt hlt, fun _ _ _ _ _ => hlt⟩
  · simp only [List.mem_filter, Option.any_eq_true, decide_eq_true_eq] at hi hj
    obtain ⟨-, u, hu', rfl⟩ := hi
    obtain ⟨-, v, hv', rfl⟩ := hj
    refine ⟨?_, fun x y hx hy hakin => ?_⟩
    · rintro rfl
      cases hu'.symm.trans hv'
      exact hne rfl
    · cases hu'.symm.trans hx
      cases hv'.symm.trans hy
      -- akin items of different names would share a code field
      rcases hakin with hname | hcode
      · exact absurd hname hne
      · exact absurd (hu u (List.mem_of_getElem? hu') v (List.mem_of_getElem? hv') hcode) hne

/-- Putting the items in the order of their names is another order, if no code field stands under two of
them. -/
theorem arranges_of_names {names : List String} (hn : names.Nodup) (hmem : ∀ e ∈ items, e.name ∈ names)
    (hu : Unmixed items) :
    Arranges items (names.flatMap fun name => items.filter (·.name = name)) (tagsOf names items) := by
  have hpairs := pairwise_tagsOf hn hu
  refine ⟨?_, ?_, hpairs.imp And.right⟩
  · rw [List.perm_ext_iff_of_nodup (hpairs.imp And.left) List.nodup_range]
    intro i
    rw [mem_tagsOf, List.mem_range]
    constructor
    · rintro ⟨e, he, -⟩
      exact (List.getElem?_eq_some_iff.mp he).1
    · intro hi
      exact ⟨items[i], List.getElem?_eq_getElem hi, hmem _ (List.getElem_mem hi)⟩
  · rw [tagsOf, List.map_flatMap, List.map_flatMap]
    simp only [Arranges.map_filter_range]

def copyBy (d : Dictionary) (names : List String) : Dictionary := ofList (names.flatMap d.named)

/-- In whatever order the names are gone through, a copy arranges the items that the dictionary arranges. -/
theorem Arranges.copyBy {d : Dictionary} {names : List String} (h : Arranges items d.entries.toList tags)
    (hu : Unmixed items) (hn : names.Perm d.keys) :
    Arranges items (d.copyBy names).entries.toList (tagsOf names items) := by
  have hnamed (name : String) : d.named name = items.filter (·.name = name) := by
    rw [named_eq, h.filter_eq (akin_of_name name)]
  rw [Dictionary.copyBy, entries_ofList, funext hnamed]
  refine arranges_of_names (hn.nodup_iff.mpr Std.ExtTreeMap.nodup_keys) (fun e he => ?_) hu
  exact hn.mem_iff.mpr (mem_keys.mpr ⟨e, mem_named.mpr ⟨h.mem_iff.mpr he, rfl⟩⟩)

end ForthMachine.Dictionary
