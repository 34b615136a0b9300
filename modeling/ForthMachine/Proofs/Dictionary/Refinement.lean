import Mathlib.Data.List.Forall2
import ForthMachine.Proofs.Dictionary.Arrangement

/-!
The dictionary and its history. Whoever uses a dictionary adds entries, looks them up, and changes flags
through the entries that these calls returned, at once or much later; and may go on with a copy. Beside it
stands the plain list of the items that were added, without any index. After all calls every question to
the dictionary is answered as that list answers it, and every entry in hand shows the flags of its item.
-/

namespace ForthMachine.Dictionary

inductive Call where
  /-- Adds an entry and returns it. -/
  | insert (e : Entry)
  /-- Returns the entry found under a name. -/
  | find (name : String)
  /-- Returns the entry found for a code field. -/
  | byCode (code : Word)
  /-- Changes flags through the entry that the `n`-th of the calls above returned, if it returned one. -/
  | amend (n : Nat) (f : Flags → Flags)
  /-- Goes on with a copy, which shares no entry with the dictionary. -/
  | clone

/-- A dictionary in use, with the positions of the entries that were returned. -/
structure Usage where
  dictionary : Dictionary := ∅
  held : List (Option Nat) := []

namespace Usage

def step (s : Usage) : Call → Usage
  | .insert e => ⟨s.dictionary.insert e, s.held ++ [some s.dictionary.size]⟩
  | .find name => { s with held := s.held ++ [s.dictionary.findPosition? name] }
  | .byCode code => { s with held := s.held ++ [s.dictionary.codePosition? code] }
  | .amend n f =>
    match s.held[n]?.join with
    | some i => { s with dictionary := s.dictionary.modifyFlags i f }
    | none => s
  | .clone => { dictionary := s.dictionary.normalize }

def run (s : Usage) (calls : List Call) : Usage := calls.foldl step s

def current? (s : Usage) (n : Nat) : Option Entry := s.held[n]?.join.bind (s.dictionary.entries[·]?)

end Usage

/-- The items that were added, oldest first, with the numbers of those that were returned. -/
structure History where
  items : List Entry := []
  held : List (Option Nat) := []

namespace History

def step (h : History) : Call → History
  | .insert e => ⟨h.items ++ [e], h.held ++ [some h.items.length]⟩
  | .find name => { h with held := h.held ++ [newest? (isNamed name) h.items] }
  | .byCode code => { h with held := h.held ++ [newest? (·.code = code) h.items] }
  | .amend n f =>
    match h.held[n]?.join with
    | some i => { h with items := h.items.modify i (Entry.mapFlags f) }
    | none => h
  | .clone => { items := h.items }

def run (h : History) (calls : List Call) : History := calls.foldl step h

def current? (h : History) (n : Nat) : Option Entry := h.held[n]?.join.bind (h.items[·]?)

/-- No copy is taken while a code field stands under two names. -/
def Permits (h : History) : List Call → Prop
  | [] => True
  | .clone :: calls => Unmixed h.items ∧ (h.step .clone).Permits calls
  | c :: calls => (h.step c).Permits calls

end History

structure Shows (d : Dictionary) (items : List Entry) : Prop where
  /-- A name stands for the newest item that has it and is not hidden. -/
  find? : ∀ name, d.find? name = items.reverse.find? (isNamed name)
  /-- A code field belongs to the newest item that has it, hidden or not. -/
  byCode? : ∀ code, d.byCode? code = items.reverse.find? (·.code = code)
  /-- Under a name stand all items that have it, oldest first. -/
  named : ∀ name, d.named name = items.filter (·.name = name)
  /-- The names are sorted, and none comes twice. -/
  keys_sorted : d.keys.Pairwise (· < ·)
  mem_keys : ∀ name, name ∈ d.keys ↔ ∃ e ∈ items, e.name = name
  size : d.size = items.length

structure Refines (s : Usage) (h : History) : Prop where
  shows : s.dictionary.Shows h.items
  /-- What a call returned is the item meant, with the flags that it has now. -/
  held : ∀ n, s.current? n = h.current? n
  /-- Flags that are changed through one entry in hand change in the one item, as every question and every
  entry in hand shows. -/
  amended : ∀ j i f, h.held[j]?.join = some i →
    (s.step (.amend j f)).dictionary.Shows (h.items.modify i (Entry.mapFlags f)) ∧
      ∀ n, (s.step (.amend j f)).current? n =
        if h.held[n]?.join = some i then (s.current? n).map (Entry.mapFlags f) else s.current? n
  /-- A copy answers every question in the same way, in whatever order the names are gone through. -/
  cloned : Unmixed h.items →
    s.dictionary.normalize.Shows h.items ∧
      ∀ names : List String, names.Perm s.dictionary.keys → (s.dictionary.copyBy names).Shows h.items

section Simulation

variable {items : List Entry} {tags : List Nat} {s : Usage} {h : History}

theorem keys_sorted (d : Dictionary) : d.keys.Pairwise (· < ·) := by
  have hkeys : d.keys.Pairwise (compare · · = .lt) := Std.ExtTreeMap.ordered_keys
  exact hkeys.imp compareOfLessAndEq_eq_lt.mp

/-- The newest of some akin items is found in either order. -/
theorem Arranges.find?_reverse {es : List Entry} {p : Entry → Bool} (ha : Arranges items es tags)
    (hp : ∀ x y, p x = true → p y = true → Akin x y) : es.reverse.find? p = items.reverse.find? p := by
  rw [← List.head?_filter, ← List.head?_filter, List.filter_reverse, List.filter_reverse, ha.filter_eq hp]

/-- A dictionary that has the items in another order answers as the list of items does, as long as akin
items keep their order. -/
theorem shows_of_arranges {d : Dictionary} (ha : Arranges items d.entries.toList tags) : d.Shows items where
  find? name := by
    rw [find?_eq, ha.find?_reverse (akin_of_isNamed name)]
  byCode? code := by
    rw [byCode?_eq, ha.find?_reverse (akin_of_code code)]
  named name := by
    rw [named_eq, ha.filter_eq (akin_of_name name)]
  keys_sorted := d.keys_sorted
  mem_keys name := by
    simp only [Dictionary.mem_keys, mem_named, ha.mem_iff]
  size := ha.length_eq

/-- A dictionary in use goes with a history: its entries are the items in some order, and what is in hand
of the one is in hand of the other. -/
def Tied (s : Usage) (h : History) : Prop :=
  ∃ tags, Arranges h.items s.dictionary.entries.toList tags ∧
    List.Forall₂ (Option.Rel fun k i => tags[k]? = some i) s.held h.held

theorem tied_empty : Tied {} {} := ⟨[], .nil, .nil⟩

/-- What the `n`-th call returned. -/
theorem rel_held {R : Nat → Nat → Prop} {held held' : List (Option Nat)}
    (hr : List.Forall₂ (Option.Rel R) held held') (n : Nat) :
    Option.Rel R held[n]?.join held'[n]?.join := by
  induction hr generalizing n with
  | nil => exact .none
  | cons hhead _ ih =>
    cases n with
    | zero => exact hhead
    | succ n => exact ih n

/-- What a call has returned is the same entry on both sides. -/
theorem Tied.current? (ht : Tied s h) (n : Nat) : s.current? n = h.current? n := by
  obtain ⟨tags, ha, hr⟩ := ht
  have hn := rel_held hr n
  rw [Usage.current?, History.current?]
  cases hs : s.held[n]?.join <;> cases hh : h.held[n]?.join <;> rw [hs, hh] at hn <;> cases hn
  · rfl
  · next hk =>
    rw [Option.bind_some, Option.bind_some, ← ha.getElem? hk, Array.getElem?_toList]

/-- An item is added at the end of both. -/
theorem Tied.insert (ht : Tied s h) (e : Entry) : Tied (s.step (.insert e)) (h.step (.insert e)) := by
  obtain ⟨tags, ha, hr⟩ := ht
  refine ⟨tags ++ [h.items.length], ?_, ?_⟩
  · change Arranges (h.items ++ [e]) (s.dictionary.insert e).entries.toList _
    rw [entries_insert]
    exact ha.insert e
  · have hsize : s.dictionary.size = tags.length := by
      rw [ha.length_tags, ← ha.length_eq, size, Array.length_toList]
    refine List.rel_append (hr.imp fun k i hrel => ?_) (.cons (.some ?_) .nil)
    · -- what was in hand before keeps its number
      cases hrel with
      | none => exact .none
      | some hk =>
        refine .some ?_
        rw [List.getElem?_append_left (List.getElem?_eq_some_iff.mp hk).1, hk]
    · rw [hsize, List.getElem?_concat_length]

/-- A lookup returns the same item. -/
theorem Tied.lookup (ht : Tied s h) {p : Entry → Bool} (hp : ∀ x y, p x = true → p y = true → Akin x y) :
    Tied { s with held := s.held ++ [newest? p s.dictionary.entries.toList] }
      { h with held := h.held ++ [newest? p h.items] } := by
  obtain ⟨tags, ha, hr⟩ := ht
  exact ⟨tags, ha, List.rel_append hr (.cons (ha.newest? hp) .nil)⟩

/-- Flags are changed through an entry in hand, in both. -/
theorem Tied.amend (ht : Tied s h) (n : Nat) (f : Flags → Flags) :
    Tied (s.step (.amend n f)) (h.step (.amend n f)) := by
  obtain ⟨tags, ha, hr⟩ := ht
  have hn := rel_held hr n
  rw [Usage.step, History.step]
  cases hs : s.held[n]?.join <;> cases hh : h.held[n]?.join <;> rw [hs, hh] at hn <;> cases hn
  · exact ⟨tags, ha, hr⟩
  · next hk =>
    refine ⟨tags, ?_, hr⟩
    change Arranges _ (s.dictionary.modifyFlags _ f).entries.toList _
    rw [entries_modifyFlags]
    exact ha.modify hk f

/-- A copy has the same items, in the order of their names, and nothing of it is in hand yet. -/
theorem Tied.clone (ht : Tied s h) (hu : Unmixed h.items) : Tied (s.step .clone) (h.step .clone) := by
  obtain ⟨tags, ha, -⟩ := ht
  exact ⟨_, ha.copyBy hu (.refl s.dictionary.keys), .nil⟩

/-- Whatever is called, the dictionary keeps going with its history. -/
theorem Tied.run {calls : List Call} (ht : Tied s h) (hp : h.Permits calls) :
    Tied (s.run calls) (h.run calls) := by
  induction calls generalizing s h with
  | nil => exact ht
  | cons c calls ih =>
    cases c with
    | insert e => exact ih (ht.insert e) hp
    | find name =>
      refine ih ?_ hp
      rw [Usage.step, findPosition?_eq]
      exact ht.lookup (akin_of_isNamed name)
    | byCode code =>
      refine ih ?_ hp
      rw [Usage.step, codePosition?_eq]
      exact ht.lookup (akin_of_code code)
    | amend n f => exact ih (ht.amend n f) hp
    | clone => exact ih (ht.clone hp.1) hp.2

theorem Tied.shows (ht : Tied s h) : s.dictionary.Shows h.items := by
  obtain ⟨tags, ha, -⟩ := ht
  exact shows_of_arranges ha

/-- An item that is changed is changed for all that have it in hand. -/
theorem History.current?_amend {j i : Nat} (hj : h.held[j]?.join = some i) (f : Flags → Flags) (n : Nat) :
    (h.step (.amend j f)).current? n =
      if h.held[n]?.join = some i then (h.current? n).map (Entry.mapFlags f) else h.current? n := by
  simp only [History.step, hj, History.current?]
  cases hn : h.held[n]?.join with
  | none => simp
  | some k =>
    by_cases hk : k = i
    · simp [hk, List.getElem?_modify]
    · simp [hk, Ne.symm hk, List.getElem?_modify]

/-- What is tied to a history cannot be told from it. -/
theorem Tied.refines (ht : Tied s h) : Refines s h where
  shows := ht.shows
  held := ht.current?
  amended j i f hj := by
    have hamended := ht.amend j f
    refine ⟨?_, fun n => ?_⟩
    · have hshows := hamended.shows
      simpa only [History.step, hj] using hshows
    · rw [hamended.current?, History.current?_amend hj, ht.current?]
  cloned hu := by
    refine ⟨(ht.clone hu).shows, fun names hn => ?_⟩
    obtain ⟨tags, ha, -⟩ := ht
    exact shows_of_arranges (ha.copyBy hu hn)

end Simulation

/-- Whatever is done with a dictionary, it is told from the list of the items by nothing, as long as no copy
is taken while a code field stands under two names. -/
theorem usage_refines_history (calls : List Call) (hp : History.Permits {} calls) :
    Refines (Usage.run {} calls) (History.run {} calls) :=
  (tied_empty.run hp).refines

/-- The newest `swap` is hidden, the copy puts `dup` in front of both, and there the hidden one is found by
its code field and shown again. -/
def hideAndShow : List Call :=
  [.insert { name := "swap", code := 5 }, .insert { name := "dup", code := 9 },
    .insert { name := "swap", code := 12 }, .find "swap", .amend 3 fun f => { f with hidden := true },
    .clone, .find "swap", .byCode 12, .amend 1 fun f => { f with hidden := false }]

theorem hidden_entry_is_shown_again :
    (Usage.run {} hideAndShow).dictionary.find? "swap" = some { name := "swap", code := 12 } ∧
      (Usage.run {} hideAndShow).current? 0 = some { name := "swap", code := 5 } ∧
      (Usage.run {} hideAndShow).dictionary.size = 3 := by
  have hr := usage_refines_history hideAndShow ⟨by decide, trivial⟩
  refine ⟨?_, ?_, ?_⟩
  · rw [hr.shows.find?]
    decide +kernel
  · rw [hr.held]
    decide +kernel
  · rw [hr.shows.size]
    rfl

end ForthMachine.Dictionary
