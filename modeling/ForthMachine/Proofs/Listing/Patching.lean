import ForthMachine.Listing
import ForthMachine.Proofs.Memory.Block

/-!
Gaps and slots. The assembler keeps a cell for every gap and the place of that cell, and fills in the gaps
one after another when the last line has been read. Here each cell is a slot, which is filled or says what
it waits for. No place is recorded twice, so the gaps can be filled in all at once, slot by slot.
-/

namespace ForthMachine.Listing

/-- A cell, or what it waits for. -/
inductive Slot where
  | filled (c : Cell)
  | waiting (label : String) (relative : Bool)

namespace Slot

def missing? (labels : Std.ExtTreeMap String Word) : Slot → Option String
  | filled _ => none
  | waiting label _ => if label ∈ labels then none else some label

def fill (labels : Std.ExtTreeMap String Word) (a : Word) : Slot → Cell
  | filled c => c
  | waiting label true => .int (labels.getD label 0 - a)
  | waiting label false => .addr (labels.getD label 0)

end Slot

def fill (labels : Std.ExtTreeMap String Word) (a : Word) : List Slot → List Cell
  | [] => []
  | s :: rest => s.fill labels a :: fill labels (a + 1) rest

variable {labels : Std.ExtTreeMap String Word} {base : Word} {cells : Array Cell} {slots : List Slot}
  {a : Assembly}

theorem fill_append (b : Word) (xs ys : List Slot) :
    fill labels b (xs ++ ys) = fill labels b xs ++ fill labels (b.plus xs.length) ys := by
  induction xs generalizing b with
  | nil => simp [fill]
  | cons s xs ih =>
    have hlength : (b + 1).plus xs.length = b.plus (s :: xs).length := by
      rw [Word.add_one, Word.plus_plus, List.length_cons, Nat.add_comm]
    rw [List.cons_append, fill, fill, ih, hlength, List.cons_append]

namespace Gap

variable {g : Gap} {gaps : List Gap}

theorem size_fill (g : Gap) : (g.fill labels base cells).size = cells.size := by
  unfold fill
  split
  · rfl
  · rw [Array.size_setIfInBounds]

theorem size_foldl_fill (gaps : List Gap) (cells : Array Cell) :
    (gaps.foldl (fill labels base) cells).size = cells.size := by
  induction gaps generalizing cells with
  | nil => rfl
  | cons g gaps ih => rw [List.foldl_cons, ih, size_fill]

/-- A gap among the cells before the last one. -/
theorem fill_push (h : g.index < cells.size) (c : Cell) :
    g.fill labels base (cells.push c) = (g.fill labels base cells).push c := by
  unfold fill
  split
  · rfl
  · apply Array.toList_inj.mp
    rw [Array.toList_push, Array.toList_setIfInBounds, Array.toList_setIfInBounds, Array.toList_push,
      List.set_append_left _ _ h]

/-- Filling in gaps does not touch a cell that comes after all of them. -/
theorem foldl_fill_push (h : ∀ g ∈ gaps, g.index < cells.size) (c : Cell) :
    gaps.foldl (fill labels base) (cells.push c) = (gaps.foldl (fill labels base) cells).push c := by
  induction gaps generalizing cells with
  | nil => rfl
  | cons g gaps ih =>
    obtain ⟨hg, hgaps⟩ := List.forall_mem_cons.mp h
    rw [List.foldl_cons, List.foldl_cons, fill_push hg]
    apply ih
    rwa [size_fill]

/-- The gap that is the last cell. -/
theorem fill_push_last {label : String} {w : Word} (hw : labels[label]? = some w) (relative : Bool) :
    fill labels base (cells.push .nil) { index := cells.size, label, relative } =
      cells.push ((Slot.waiting label relative).fill labels (base.plus cells.size)) := by
  apply Array.toList_inj.mp
  cases relative <;>
    simp [fill, hw, Slot.fill, Std.ExtTreeMap.getD_eq_getD_getElem?, Array.toList_setIfInBounds]

end Gap

namespace Assembly

structure Stands (base : Word) (slots : List Slot) (a : Assembly) : Prop where
  here : a.here = base.plus slots.length
  size : a.cells.size = slots.length
  within : ∀ g ∈ a.gaps.toList, g.index < a.cells.size
  missing : ∀ labels, a.gaps.toList.filterMap (Gap.missing? labels) =
    slots.filterMap (Slot.missing? labels)
  cells : ∀ labels, slots.filterMap (Slot.missing? labels) = [] →
    (a.gaps.toList.foldl (Gap.fill labels base) a.cells).toList = fill labels base slots

theorem stands_nil (base : Word) : Stands base [] { here := base } where
  here := (Word.plus_zero base).symm
  size := rfl
  within := fun _ hg => nomatch hg
  missing := fun _ => rfl
  cells := fun _ _ => rfl

namespace Stands

theorem here_push (h : a.Stands base slots) (s : Slot) :
    a.here + 1 = base.plus (slots ++ [s]).length := by
  rw [h.here, Word.plus_add_one, List.length_append, List.length_singleton]

/-- A cell that is known is a slot filled at once. -/
theorem push (h : a.Stands base slots) (c : Cell) :
    (a.push c).Stands base (slots ++ [.filled c]) where
  here := h.here_push _
  size := by simp [Assembly.push, h.size]
  within := by
    intro g hg
    have hless := h.within g hg
    rw [Assembly.push, Array.size_push]
    omega
  missing := by
    intro labels
    rw [List.filterMap_append, ← h.missing labels]
    simp [Assembly.push, Slot.missing?]
  cells := by
    intro labels hknown
    rw [List.filterMap_append, List.append_eq_nil_iff] at hknown
    simp only [Assembly.push]
    rw [Gap.foldl_fill_push h.within, Array.toList_push, h.cells labels hknown.1, fill_append]
    rfl

/-- A gap is a slot that waits. -/
theorem await (h : a.Stands base slots) (label : String) (relative : Bool) :
    (a.await label relative).Stands base (slots ++ [.waiting label relative]) where
  here := h.here_push _
  size := by simp [Assembly.await, Assembly.push, h.size]
  within := by
    intro g hg
    simp only [Assembly.await, Assembly.push, Array.toList_push, List.mem_append,
      List.mem_singleton, Array.size_push] at hg ⊢
    rcases hg with hg | rfl
    · exact Nat.lt_succ_of_lt (h.within g hg)
    · exact Nat.lt_succ_self _
  missing := by
    intro labels
    rw [List.filterMap_append, ← h.missing labels]
    simp only [Assembly.await, Assembly.push, Array.toList_push, List.filterMap_append]
    rfl
  cells := by
    intro labels hknown
    rw [List.filterMap_append, List.append_eq_nil_iff] at hknown
    obtain ⟨hbefore, hlast⟩ := hknown
    have hmem : label ∈ labels := by
      apply Classical.byContradiction
      intro hnot
      simp only [List.filterMap_cons, List.filterMap_nil, Slot.missing?, if_neg hnot] at hlast
      cases hlast
    obtain ⟨w, hw⟩ := Option.isSome_iff_exists.mp (Std.ExtTreeMap.mem_iff_isSome_getElem?.mp hmem)
    simp only [Assembly.await, Assembly.push, Array.toList_push]
    have hsize : (a.gaps.toList.foldl (Gap.fill labels base) a.cells).size = a.cells.size :=
      Gap.size_foldl_fill _ _
    rw [List.foldl_append, Gap.foldl_fill_push h.within, List.foldl_cons, List.foldl_nil, ← hsize,
      Gap.fill_push_last hw, Array.toList_push, h.cells labels hbefore, hsize, h.size, fill_append]
    rfl

/-- The address counter leads back to the first cell. -/
theorem base_eq (h : a.Stands base slots) : a.base = base := by
  rw [Assembly.base, h.here, h.size, Word.plus]
  grind

/-- Filling in the gaps by their places. -/
theorem finish (h : a.Stands base slots) :
    a.finish base =
      match slots.filterMap (Slot.missing? a.labels) with
      | [] => .ok { base, cells := fill a.labels base slots, labels := a.labels }
      | missing => .error (.unresolved missing) := by
  rw [Assembly.finish, h.missing, Assembly.resolved, h.base_eq, ← Array.foldl_toList]
  cases hm : slots.filterMap (Slot.missing? a.labels) with
  | nil =>
    dsimp only
    rw [h.cells _ hm]
  | cons name names => rfl

end Stands

structure Adds (new : List Slot) (a a' : Assembly) : Prop where
  labels : a'.labels = a.labels
  stands : ∀ {base slots}, a.Stands base slots → a'.Stands base (slots ++ new)

theorem adds_push (a : Assembly) (c : Cell) : Adds [.filled c] a (a.push c) :=
  ⟨rfl, fun h => h.push c⟩

theorem adds_await (a : Assembly) (label : String) (relative : Bool) :
    Adds [.waiting label relative] a (a.await label relative) :=
  ⟨rfl, fun h => h.await label relative⟩

/-- Slots are added one after another. -/
theorem Adds.trans {xs ys : List Slot} {a₁ a₂ a₃ : Assembly} (h : Adds xs a₁ a₂) (h' : Adds ys a₂ a₃) :
    Adds (xs ++ ys) a₁ a₃ where
  labels := h'.labels.trans h.labels
  stands := by
    intro base slots hs
    rw [← List.append_assoc]
    exact h'.stands (h.stands hs)

end Assembly

end ForthMachine.Listing
