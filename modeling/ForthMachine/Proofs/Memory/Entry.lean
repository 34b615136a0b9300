import ForthMachine.Proofs.Dictionary.History
import ForthMachine.Proofs.Machine.Thread

namespace ForthMachine

namespace Memory

def entryCells (h : Word) (link : Cell) (name : String) (cells : List Cell) : List Cell :=
  .ref (h.plus 3) :: link :: .text name :: cells

theorem length_entryCells (h : Word) (link : Cell) (name : String) (cells : List Cell) :
    (entryCells h link name cells).length = 3 + cells.length := by
  simp only [entryCells, List.length_cons]
  omega

/-- Adds a header at `h` and some cells of code after it, and makes it the newest one. -/
def enter (M : Memory) (h : Word) (link : Cell) (name : String) (cells : List Cell) : Memory :=
  append (M.insert latestAddress (.addr h)) h (entryCells h link name cells)

/-- A block of `n` cells from `h` on that can be filled: its cells are at different addresses, and none
of them is a system variable. -/
structure Free (h : Word) (n : Nat) : Prop where
  count : n ≤ Word.count
  here : Outside h n hereAddress
  latest : Outside h n latestAddress
  state : Outside h n stateAddress

theorem Free.mono {h : Word} {m n : Nat} (hf : Free h n) (hm : m ≤ n) : Free h m :=
  ⟨Nat.le_trans hm hf.count, hf.here.mono hm, hf.latest.mono hm, hf.state.mono hm⟩

/-- The end of a block that can be filled can be filled. -/
theorem Free.drop {h : Word} {m n : Nat} (hf : Free h (m + n)) : Free (h.plus m) n :=
  ⟨by have := hf.count; omega, hf.here.drop, hf.latest.drop, hf.state.drop⟩

structure Fixed (M : Memory) (h : Word) (n : Nat) (a : Word) (c : Cell) : Prop where
  cell : M[a]? = some c
  here : a ≠ hereAddress
  latest : a ≠ latestAddress
  state : a ≠ stateAddress
  outside : Outside h n a

/-- Cells from `a` on that stay what they are while a block of `n` cells from `h` on is filled. -/
def Keeps (M : Memory) (h : Word) (n : Nat) (a : Word) (cells : List Cell) : Prop :=
  ∀ i c, cells[i]? = some c → Fixed M h n (a.plus i) c

/-- Cells that stay are kept piece by piece. -/
theorem keeps_append {M : Memory} {h a : Word} {n : Nat} {xs ys : List Cell} :
    M.Keeps h n a (xs ++ ys) ↔ M.Keeps h n a xs ∧ M.Keeps h n (a.plus xs.length) ys := by
  constructor
  · intro hk
    refine ⟨fun i c hi => hk i c ?_, fun i c hi => ?_⟩
    · obtain ⟨hlt, -⟩ := List.getElem?_eq_some_iff.mp hi
      rw [List.getElem?_append_left hlt, hi]
    · rw [Word.plus_plus]
      apply hk _ c
      rw [List.getElem?_append_right (by omega), Nat.add_sub_cancel_left, hi]
  · rintro ⟨hx, hy⟩ i c hi
    by_cases hlt : i < xs.length
    · rw [List.getElem?_append_left hlt] at hi
      exact hx i c hi
    · rw [List.getElem?_append_right (by omega)] at hi
      have hf := hy (i - xs.length) c hi
      rwa [Word.plus_plus, Nat.add_sub_cancel' (by omega)] at hf

theorem keeps_singleton {M : Memory} {h a : Word} {n : Nat} {c : Cell} :
    M.Keeps h n a [c] ↔ Fixed M h n a c := by
  constructor
  · intro hk
    simpa using hk 0 c rfl
  · intro hf i d hi
    obtain ⟨hlt, rfl⟩ := List.getElem?_eq_some_iff.mp hi
    have hzero : i = 0 := by simpa using hlt
    subst hzero
    simpa using hf

theorem keeps_cons {M : Memory} {h a : Word} {n : Nat} {c : Cell} {cs : List Cell} :
    M.Keeps h n a (c :: cs) ↔ Fixed M h n a c ∧ M.Keeps h n (a.plus 1) cs := by
  rw [← List.singleton_append, keeps_append, keeps_singleton]
  rfl

/-- Cells that stay are there now. -/
theorem Keeps.holds {M : Memory} {h a : Word} {n : Nat} {cells : List Cell}
    (hk : M.Keeps h n a cells) : M.Holds a cells := by
  intro i hi
  rw [(hk i _ (List.getElem?_eq_getElem hi)).cell, List.getElem?_eq_getElem hi]

section Enter

variable {M : Memory} {h a : Word} {n : Nat} {link c : Cell} {name : String}
  {cells cs : List Cell}

@[simp] theorem enter_here : (M.enter h link name cells)[hereAddress]? =
    some (.addr (h.plus (3 + cells.length))) := by
  rw [enter, append_here, length_entryCells]

/-- A definition leaves the cells around it alone. -/
theorem enter_outside (ha : a ≠ hereAddress) (hl : a ≠ latestAddress)
    (ho : Outside h (3 + cells.length) a) : (M.enter h link name cells)[a]? = M[a]? := by
  rw [enter, append_outside _ ha (by rwa [length_entryCells]), getElem?_insert_ne _ _ hl.symm]

/-- A cell that stays is there when the definition has been entered. -/
theorem Fixed.enter (hc : Fixed M h n a c) (hn : 3 + cells.length ≤ n) :
    (M.enter h link name cells)[a]? = some c := by
  rw [enter_outside hc.here hc.latest (hc.outside.mono hn), hc.cell]

theorem Fixed.insert_state (hc : Fixed M h n a c) (d : Cell) :
    Fixed (M.insert stateAddress d) h n a c :=
  { hc with cell := by rw [getElem?_insert_ne _ _ hc.state.symm, hc.cell] }

/-- Cells that stay are there when the definition has been entered. -/
theorem Keeps.enter (hk : M.Keeps h n a cs) (hn : 3 + cells.length ≤ n) :
    (M.enter h link name cells).Holds a cs := by
  intro i hi
  rw [(hk i _ (List.getElem?_eq_getElem hi)).enter hn, List.getElem?_eq_getElem hi]

theorem Keeps.insert_state (hk : M.Keeps h n a cs) (d : Cell) :
    Keeps (M.insert stateAddress d) h n a cs :=
  fun i c hi => (hk i c hi).insert_state d

theorem enter_latest (hf : Free h (3 + cells.length)) :
    (M.enter h link name cells)[latestAddress]? = some (.addr h) := by
  rw [enter, append_outside _ (by decide) (by rw [length_entryCells]; exact hf.latest),
    getElem?_insert_eq]

theorem enter_state (hf : Free h (3 + cells.length)) :
    (M.enter h link name cells)[stateAddress]? = M[stateAddress]? :=
  enter_outside (by decide) (by decide) hf.state

theorem enter_holds (hf : Free h (3 + cells.length)) :
    (M.enter h link name cells).Holds h (entryCells h link name cells) := by
  intro i hi
  have hlen := length_entryCells h link name cells
  exact append_inside _ (by rw [hlen]; exact hf.count) (by rw [hlen]; exact hf.here) hi

/-- The code comes after three cells of header. -/
theorem enter_holds_code (hf : Free h (3 + cells.length)) :
    (M.enter h link name cells).Holds (h.plus 3) cells := by
  have hall : (M.enter h link name cells).Holds h ([.ref (h.plus 3), link, .text name] ++ cells) :=
    enter_holds hf
  exact (holds_append.mp hall).2

/-- The cells of a definition stay what they are while the block behind it is filled. -/
theorem enter_keeps (hf : Free h (3 + cells.length + n)) :
    (M.enter h link name cells).Keeps (h.plus (3 + cells.length)) n (h.plus 3) cells := by
  have hcount := hf.count
  intro i c hi
  obtain ⟨hlt, -⟩ := List.getElem?_eq_some_iff.mp hi
  refine ⟨(enter_holds_code (hf.mono (Nat.le_add_right _ _)) i hlt).trans hi, ?_, ?_, ?_,
    fun j hj => ?_⟩
  · rw [Word.plus_plus]
    exact hf.here _ (by omega)
  · rw [Word.plus_plus]
    exact hf.latest _ (by omega)
  · rw [Word.plus_plus]
    exact hf.state _ (by omega)
  · rw [Word.plus_plus, Word.plus_plus]
    exact Word.plus_ne_plus h (by omega) (by omega) (by omega)

/-- Compiling more cells makes a longer definition. -/
theorem enter_append (hh : Outside h (3 + cells.length + cs.length) hereAddress) :
    (M.enter h link name cells).append (h.plus (3 + cells.length)) cs =
      M.enter h link name (cells ++ cs) := by
  have hlen := length_entryCells h link name cells
  rw [← hlen] at hh ⊢
  exact append_append _ hh

/-- A write into the code changes one of its cells. -/
theorem enter_set (hf : Free h (3 + cells.length)) {i : Nat} (hi : i < cells.length) (c : Cell) :
    (M.enter h link name cells).insert (h.plus (3 + i)) c = M.enter h link name (cells.set i c) := by
  have hlen := length_entryCells h link name cells
  have hset : (entryCells h link name cells).set (3 + i) c = entryCells h link name (cells.set i c) := by
    rw [Nat.add_comm]
    rfl
  rw [enter, append_set _ (by rw [hlen]; exact hf.count) (by rw [hlen]; exact hf.here)
    (by rw [hlen]; omega), hset, enter]

/-- The mode can be changed before or after the definition is entered. -/
theorem enter_insert_state (hf : Free h (3 + cells.length)) (c : Cell) :
    (M.enter h link name cells).insert stateAddress c =
      enter (M.insert stateAddress c) h link name cells := by
  have ho : Outside h (entryCells h link name cells).length stateAddress := by
    rw [length_entryCells]
    exact hf.state
  rw [enter, enter, ← append_insert_comm _ _ (by decide) ho, insert_comm _ _ _ (by decide)]

/-- A header is a definition without code. -/
theorem enter_nil (hl : Outside h 3 latestAddress) :
    ((((M.insert h (.ref (h + 3))).insert (h + 1) link).insert (h + 2) (.text name)).insert hereAddress
      (.addr (h + 3))).insert latestAddress (.addr h) = M.enter h link name [] := by
  -- the link to the newest header is written last, but it could as well be written first
  rw [enter, append_insert_comm _ _ (by decide) hl, append, entryCells]
  simp only [load, Word.add_one, Word.plus_plus]
  rfl

end Enter

end Memory

namespace State

open Memory

variable {M : Memory} {h a : Word} {link d : Cell} {name : String} {cells : List Cell} {st : State}

/-- Defining a name enters a header for it. -/
theorem define_apply (hd : st.memory[hereAddress]? = some d) (hh : d.address? = some h)
    (hl : st.latestLink = .ok link) (hf : Free h 3) :
    define name st = .ok st.dictionary.size { st with
      memory := st.memory.enter h link name []
      dictionary := st.dictionary.insert { name, code := h.plus 3 } } := by
  rw [define_of_here hd hh hl, enter_nil hf.latest]
  rfl

/-- Compiling a cell behind the newest definition makes it one cell longer. -/
theorem comma_apply (c : Cell) (hm : st.memory = M.enter h link name cells)
    (hf : Free h (3 + cells.length + 1)) :
    comma c st = .ok () { st with memory := M.enter h link name (cells ++ [c]) } := by
  have hhere : st.memory[hereAddress]? = some (.addr (h.plus (3 + cells.length))) := by
    rw [hm, enter_here]
  have hadded : (M.enter h link name cells).append (h.plus (3 + cells.length)) [c] =
      M.enter h link name (cells ++ [c]) := enter_append hf.here
  rw [comma_of_here hhere rfl, hm, ← hadded]
  rfl

/-- The newest entry is found through the header that was entered last. -/
theorem latest_apply {D : Dictionary} {e : Entry} (hm : st.memory = M.enter h link name cells)
    (hD : st.dictionary = D.insert e) (he : e.code = h.plus 3) (hf : Free h (3 + cells.length)) :
    latest st = .ok D.size st := by
  have hlatest : fetchAddress latestAddress st = .ok h st :=
    fetchAddress_of_getElem? (by rw [hm, enter_latest hf]) rfl
  have href : st.memory[h]? = some (.ref (h.plus 3)) := by
    rw [hm]
    exact (holds_cons.mp (enter_holds hf)).1
  have hpos : st.headerPosition h = .ok D.size := by
    simp [headerPosition, href, Cell.number?, hD, Dictionary.codePosition?_insert, he]
  simp [latest, hlatest, hpos]

end State

end ForthMachine
