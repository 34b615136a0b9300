import ForthMachine.Proofs.Listing.OnePass

namespace ForthMachine.Listing

open Assembly

namespace Item

def pointers : Item → List (Option String)
  | directive .label _ | incomplete => []
  | directive .cell x => [pointer x]
  | directive .text _ | single _ => [none]
  | directive .lit x => [none, pointer x]
  | directive (.branch _) _ => [none, none]
where
  pointer (x : String) : Option String := if (integer? x).isSome then none else some x

end Item

def pointers (items : List Item) : List (Option String) := items.flatMap Item.pointers

theorem add_sub_left (b c : Word) : b + (c - b) = c := by
  grind

/-- Every label moves by as much as the listing does. -/
theorem addresses_shifted (b c : Word) (n : Nat) (items : List Item) :
    addresses c n items = (addresses b n items).map fun p => (p.1, p.2 + (c - b)) := by
  induction items generalizing n with
  | nil => rfl
  | cons item items ih =>
    have hplus : c.plus n = b.plus n + (c - b) := by rw [Word.plus_add, add_sub_left]
    rw [addresses, addresses, List.map_append, ih, hplus]
    cases item.defines? <;> rfl

/-- Tables that go together stay so when the same labels are added to both. -/
theorem getElem?_insertMany_shifted {d : Word} {t t' : Std.ExtTreeMap String Word}
    (h : ∀ name : String, t'[name]? = t[name]?.map (· + d)) (new : List (String × Word)) (name : String) :
    (t'.insertMany (new.map fun p => (p.1, p.2 + d)))[name]? =
      ((t.insertMany new)[name]?).map (· + d) := by
  induction new generalizing t t' with
  | nil => simpa using h name
  | cons p new ih =>
    rw [List.map_cons, Std.ExtTreeMap.insertMany_cons, Std.ExtTreeMap.insertMany_cons]
    apply ih
    intro other
    rw [Std.ExtTreeMap.getElem?_insert, Std.ExtTreeMap.getElem?_insert]
    split
    · rfl
    · exact h other

theorem labelTable_shifted (b c : Word) (items : List Item) (name : String) :
    (labelTable c items)[name]? = (labelTable b items)[name]?.map (· + (c - b)) := by
  rw [labelTable, labelTable, addresses_shifted b c, Std.ExtTreeMap.ofList_eq_insertMany_empty,
    Std.ExtTreeMap.ofList_eq_insertMany_empty]
  apply getElem?_insertMany_shifted
  intro other
  simp

/-- Which labels are missing does not depend on the address. -/
theorem unresolved_labelTable (b c : Word) (items its : List Item) :
    unresolved (labelTable b items) its = unresolved (labelTable c items) its := by
  have hmissing : Item.missing? (labelTable b items) = Item.missing? (labelTable c items) := by
    funext item
    simp only [Item.missing?, mem_labelTable]
  rw [unresolved, unresolved, hmissing]

inductive Shifted (labels : Std.ExtTreeMap String Word) (d : Word) :
    List (Option String) → List Cell → List Cell → Prop where
  | nil : Shifted labels d [] [] []
  | same {names : List (Option String)} {xs ys : List Cell} (x : Cell) :
      Shifted labels d names xs ys → Shifted labels d (none :: names) (x :: xs) (x :: ys)
  | moved {names : List (Option String)} {xs ys : List Cell} {name : String} {a : Word} :
      labels[name]? = some a → Shifted labels d names xs ys →
      Shifted labels d (some name :: names) (.addr a :: xs) (.addr (a + d) :: ys)

namespace Shifted

variable {labels : Std.ExtTreeMap String Word} {d : Word} {names names' : List (Option String)}
  {xs ys xs' ys' : List Cell}

theorem append (h : Shifted labels d names xs ys) (h' : Shifted labels d names' xs' ys') :
    Shifted labels d (names ++ names') (xs ++ xs') (ys ++ ys') := by
  induction h with
  | nil => exact h'
  | same x _ ih => exact .same x ih
  | moved ha _ ih => exact .moved ha ih

theorem length (h : Shifted labels d names xs ys) : ys.length = xs.length := by
  induction h with
  | nil => rfl
  | same _ _ ih => rw [List.length_cons, List.length_cons, ih]
  | moved _ _ ih => rw [List.length_cons, List.length_cons, ih]

/-- A cell that holds the address of a label moves with it. -/
theorem getElem?_of_pointer {i : Nat} {name : String} (h : Shifted labels d names xs ys)
    (hi : names[i]?.join = some name) :
    ∃ a, labels[name]? = some a ∧ xs[i]? = some (.addr a) ∧ ys[i]? = some (.addr (a + d)) := by
  induction h generalizing i with
  | nil => cases hi
  | same x _ ih =>
    cases i with
    | zero => cases hi
    | succ i => exact ih hi
  | moved ha _ ih =>
    cases i with
    | zero =>
      cases hi
      exact ⟨_, ha, rfl, rfl⟩
    | succ i => exact ih hi

/-- Every other cell stays as it is. -/
theorem getElem?_of_not_pointer {i : Nat} (h : Shifted labels d names xs ys)
    (hi : names[i]?.join = none) : ys[i]? = xs[i]? := by
  induction h generalizing i with
  | nil => rfl
  | same x _ ih =>
    cases i with
    | zero => rfl
    | succ i => exact ih hi
  | moved _ _ ih =>
    cases i with
    | zero => cases hi
    | succ i => exact ih hi

end Shifted

section Cells

variable {vocabulary : String → Option Cell} {labels labels' : Std.ExtTreeMap String Word} {d : Word}
  (h : ∀ name : String, labels'[name]? = labels[name]?.map (· + d))

include h

theorem shifted_pointer {x : String} (hx : integer? x = none → x ∈ labels) :
    Shifted labels d [Item.pointers.pointer x] [Item.cells.address labels x]
      [Item.cells.address labels' x] := by
  unfold Item.pointers.pointer Item.cells.address
  cases hn : integer? x with
  | some n => exact .same _ .nil
  | none =>
    obtain ⟨w, hw⟩ := Option.isSome_iff_exists.mp (Std.ExtTreeMap.mem_iff_isSome_getElem?.mp (hx hn))
    have hw' : labels'[x]? = some (w + d) := by rw [h, hw]; rfl
    simp only [Option.isSome_none, Bool.false_eq_true, ↓reduceIte, Option.map_none, Option.getD_none,
      Std.ExtTreeMap.getD_eq_getD_getElem?, hw, hw', Option.getD_some]
    exact .moved hw .nil

/-- The distance to a label is the same wherever the listing lies. -/
theorem distance_shifted {x : String} (hx : integer? x = none → x ∈ labels) (a : Word) :
    Item.cells.distance labels' (a + d) x = Item.cells.distance labels a x := by
  unfold Item.cells.distance
  cases hn : integer? x with
  | some n => rfl
  | none =>
    obtain ⟨w, hw⟩ := Option.isSome_iff_exists.mp (Std.ExtTreeMap.mem_iff_isSome_getElem?.mp (hx hn))
    have hw' : labels'[x]? = some (w + d) := by rw [h, hw]; rfl
    have hdistance : w + d - (a + d + 1) = w - (a + 1) := by grind
    simp only [Option.map_none, Option.getD_none, Std.ExtTreeMap.getD_eq_getD_getElem?, hw, hw',
      Option.getD_some, hdistance]

/-- The cells of one item at two addresses. -/
theorem shifted_item (item : Item) (hitem : item.missing? labels = none) (a : Word) :
    Shifted labels d item.pointers (item.cells vocabulary labels a)
      (item.cells vocabulary labels' (a + d)) := by
  have hknown {x : String} (hr : item.refers? = if (integer? x).isSome then none else some x) :
      integer? x = none → x ∈ labels := by
    intro hn
    rw [hn] at hr
    apply Classical.byContradiction
    intro hx
    rw [missing?_of_refers hr, if_neg hx] at hitem
    cases hitem
  rcases item with ⟨_ | _ | _ | _ | _, x⟩ | token | _
  · exact .nil
  · exact shifted_pointer h (hknown rfl)
  · exact .same _ .nil
  · exact .same _ (shifted_pointer h (hknown rfl))
  · rw [Item.cells, Item.cells, distance_shifted h (hknown rfl)]
    exact .same _ (.same _ .nil)
  · exact .same _ .nil
  · exact .nil

/-- The cells of all items at two addresses. -/
theorem shifted_emit (vocabulary : String → Option Cell) (items : List Item)
    (hitems : unresolved labels items = []) (a : Word) :
    Shifted labels d (pointers items) (emit vocabulary labels a items)
      (emit vocabulary labels' (a + d) items) := by
  induction items generalizing a with
  | nil => exact .nil
  | cons item items ih =>
    rw [unresolved, List.filterMap_cons] at hitems
    cases hitem : item.missing? labels with
    | some name =>
      rw [hitem] at hitems
      cases hitems
    | none =>
      rw [hitem] at hitems
      rw [pointers, List.flatMap_cons, emit, emit, ← Word.plus_add]
      exact (shifted_item h item hitem a).append (ih hitems _)

end Cells

/-- A listing assembled at two addresses: the same error, or two programs in which the addresses of labels,
and the cells that hold such an address, differ by as much as the two addresses do. All other cells are
equal, the distances of branches among them. -/
theorem assemble_shifted (source : String) (dictionary : Dictionary) (b c : Word) :
    (∀ e, assemble source dictionary b = .error e ↔ assemble source dictionary c = .error e) ∧
      ∀ p q, assemble source dictionary b = .ok p → assemble source dictionary c = .ok q →
        q.cells.length = p.cells.length ∧
        (∀ name : String, q.labels[name]? = p.labels[name]?.map (· + (c - b))) ∧
        ∀ i : Nat,
          (∀ name, (pointers ((items source).map Prod.snd))[i]?.join = some name →
            ∃ a, p.labels[name]? = some a ∧ p.cells[i]? = some (.addr a) ∧
              q.cells[i]? = some (.addr (a + (c - b)))) ∧
          ((pointers ((items source).map Prod.snd))[i]?.join = none → q.cells[i]? = p.cells[i]?) := by
  constructor
  · intro e
    -- neither the first error nor the list of missing labels depends on addresses
    cases he : firstError (vocabulary dictionary) [] (items source) with
    | some e' => rw [assemble_of_firstError he b, assemble_of_firstError he c]
    | none =>
      rw [assemble_of_sound he b, assemble_of_sound he c, secondPass, secondPass]
      rw [unresolved_labelTable b c]
      split <;> simp
  · intro p q hp hq
    obtain ⟨-, hpl, hpc, hresolved⟩ := assemble_ok hp
    obtain ⟨-, hql, hqc, -⟩ := assemble_ok hq
    have hlabels (name : String) : q.labels[name]? = p.labels[name]?.map (· + (c - b)) := by
      rw [hpl, hql]
      exact labelTable_shifted b c _ name
    have hcells : Shifted p.labels (c - b) (pointers ((items source).map Prod.snd)) p.cells q.cells := by
      rw [hpc, hqc]
      have hemit := shifted_emit hlabels (vocabulary dictionary) _ hresolved b
      rwa [add_sub_left] at hemit
    exact ⟨hcells.length, hlabels, fun i =>
      ⟨fun _ => hcells.getElem?_of_pointer, hcells.getElem?_of_not_pointer⟩⟩

def forward : String := "BRANCH on LIT on\n.L on EXIT"

/-- The distance in the second cell stays, and the address in the fourth one moves. -/
theorem assemble_shifted_forward :
    ∃ (p q : Program) (a : Word), assemble forward ∅ 16 = .ok p ∧ assemble forward ∅ (-1) = .ok q ∧
      q.cells[1]? = p.cells[1]? ∧ p.cells[3]? = some (.addr a) ∧
      q.cells[3]? = some (.addr (a + (-1 - 16))) := by
  have hok (base : Word) (h : (assemble forward ∅ base).isOk = true) :
      ∃ p, assemble forward ∅ base = .ok p := by
    cases hp : assemble forward ∅ base with
    | error e =>
      rw [hp] at h
      cases h
    | ok p => exact ⟨p, rfl⟩
  obtain ⟨p, hp⟩ := hok 16 (by decide +kernel)
  obtain ⟨q, hq⟩ := hok (-1) (by decide +kernel)
  have hpointers : pointers ((items forward).map Prod.snd) = [none, none, none, some "on", none] := by
    decide +kernel
  obtain ⟨-, -, hcells⟩ := (assemble_shifted forward ∅ 16 (-1)).2 p q hp hq
  rw [hpointers] at hcells
  obtain ⟨a, -, hpa, hqa⟩ := (hcells 3).1 "on" rfl
  exact ⟨p, q, a, hp, hq, (hcells 1).2 rfl, hpa, hqa⟩

end ForthMachine.Listing
