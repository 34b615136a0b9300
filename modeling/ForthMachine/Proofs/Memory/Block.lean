import ForthMachine.Memory

/-!
Blocks: cells that lie one after another in memory. Addresses wrap around, so a block may run past the
largest word; the cells of a block are at different addresses as long as there are at most 2^64 of them.
-/

namespace ForthMachine

namespace Word

def count : Nat := 0x10000000000000000

@[simp] theorem plus_zero (a : Word) : a.plus 0 = a := by
  simp [plus]

@[simp] theorem plus_plus (a : Word) (m n : Nat) : (a.plus m).plus n = a.plus (m + n) := by
  simp only [plus, Int64.ofNat_add, Int64.add_assoc]

theorem add_one (a : Word) : a + 1 = a.plus 1 := rfl

theorem plus_add_one (a : Word) (n : Nat) : a.plus n + 1 = a.plus (n + 1) := plus_plus a n 1

theorem plus_add (a d : Word) (n : Nat) : a.plus n + d = (a + d).plus n := by
  simp only [plus, Int64.add_assoc, Int64.add_comm d]

/-- Counting fewer cells than there are words, no address comes again. -/
theorem plus_injective (a : Word) {m n : Nat} (hm : m < count) (hn : n < count)
    (h : a.plus m = a.plus n) : m = n := by
  have hw : Int64.ofNat m = Int64.ofNat n := by simpa [plus] using h
  -- both sums are below 2^64, so equal remainders are equal sums
  have hb := congrArg (fun w => w.toBitVec.toNat) hw
  simp only [Int64.toBitVec_ofNat', BitVec.toNat_ofNat] at hb
  unfold count at hm hn
  omega

theorem plus_ne_plus (a : Word) {m n : Nat} (hm : m < count) (hn : n < count) (h : m ≠ n) :
    a.plus m ≠ a.plus n :=
  fun he => h (plus_injective a hm hn he)

/-- A distance forwards, whether or not the addresses wrap around in between. -/
theorem plus_sub_plus (a : Word) (m n : Nat) : a.plus (m + n) - a.plus m = Int64.ofNat n := by
  simp only [plus, Int64.ofNat_add]
  grind

/-- A distance backwards. -/
theorem plus_sub_plus_add (a : Word) (m n : Nat) : a.plus m - a.plus (m + n) = -Int64.ofNat n := by
  simp only [plus, Int64.ofNat_add]
  grind

theorem plus_add_ofNat (a : Word) (m n : Nat) : a.plus m + Int64.ofNat n = a.plus (m + n) := by
  simp only [plus, Int64.ofNat_add, Int64.add_assoc]

theorem plus_add_neg_ofNat (a : Word) (m n : Nat) : a.plus (m + n) + -Int64.ofNat n = a.plus m := by
  simp only [plus, Int64.ofNat_add]
  grind

/-- Addresses are counted on as long as they do not wrap around. -/
theorem toInt_plus {a : Word} {n : Nat} (h : a.toInt + n < bound) : (a.plus n).toInt = a.toInt + n := by
  have hmin := Int64.le_toInt a
  have hsize : Int64.size = 2 ^ 64 := rfl
  unfold bound at h
  rw [plus, Int64.toInt_add, Int64.toInt_ofNat', hsize, Int.add_bmod_bmod]
  exact Int.bmod_eq_of_le (by omega) (by omega)

end Word

namespace Memory

@[simp] theorem getElem?_insert_eq (m : Memory) (a : Word) (c : Cell) :
    (m.insert a c)[a]? = some c := by
  simp

theorem getElem?_insert_ne (m : Memory) {a b : Word} (c : Cell) (h : a ≠ b) :
    (m.insert a c)[b]? = m[b]? := by
  simp [Std.ExtTreeMap.getElem?_insert, h]

theorem getElem?_insert_ite (m : Memory) (a b : Word) (c : Cell) :
    (m.insert a c)[b]? = if a = b then some c else m[b]? := by
  simp [Std.ExtTreeMap.getElem?_insert]

/-- Writes to different addresses can change places. -/
theorem insert_comm (m : Memory) {a b : Word} (c d : Cell) (h : a ≠ b) :
    (m.insert a c).insert b d = (m.insert b d).insert a c := by
  apply Std.ExtTreeMap.ext_getElem?
  intro k
  simp only [getElem?_insert_ite]
  split <;> split <;> simp_all

/-- The later write to an address counts. -/
@[simp] theorem insert_insert (m : Memory) (a : Word) (c d : Cell) :
    (m.insert a c).insert a d = m.insert a d := by
  apply Std.ExtTreeMap.ext_getElem?
  intro k
  simp only [getElem?_insert_ite]
  split <;> rfl

theorem insert_eq_self (m : Memory) {a : Word} {c : Cell} (h : m[a]? = some c) :
    m.insert a c = m := by
  apply Std.ExtTreeMap.ext_getElem?
  intro k
  rw [getElem?_insert_ite]
  split
  · next hk => rw [← hk, h]
  · rfl

/-- An address at which no cell of a block of `n` cells from `h` on lies. -/
def Outside (h : Word) (n : Nat) (a : Word) : Prop := ∀ i, i < n → h.plus i ≠ a

theorem Outside.mono {h a : Word} {m n : Nat} (ho : Outside h n a) (hm : m ≤ n) : Outside h m a :=
  fun i hi => ho i (by omega)

/-- What lies outside of a block lies outside of its end. -/
theorem Outside.drop {h a : Word} {m n : Nat} (ho : Outside h (m + n) a) : Outside (h.plus m) n a := by
  intro i hi
  rw [Word.plus_plus]
  exact ho (m + i) (by omega)

theorem load_append (m : Memory) (h : Word) (xs ys : List Cell) :
    m.load h (xs ++ ys) = (m.load h xs).load (h.plus xs.length) ys := by
  induction xs generalizing m h with
  | nil => simp [load]
  | cons x xs ih =>
    simp only [List.cons_append, load, ih, List.length_cons, Word.add_one, Word.plus_plus]
    rw [Nat.add_comm]

/-- A block leaves the cells around it alone. -/
theorem getElem?_load_outside (m : Memory) {h a : Word} {cs : List Cell}
    (ho : Outside h cs.length a) : (m.load h cs)[a]? = m[a]? := by
  induction cs generalizing m h with
  | nil => rfl
  | cons c cs ih =>
    have hne : h ≠ a := by simpa using ho 0 (by simp)
    have hrest : Outside (h + 1) cs.length a := by
      apply Outside.drop (m := 1)
      simpa [Nat.add_comm] using ho
    rw [load, ih _ hrest, getElem?_insert_ne _ _ hne]

/-- The cells of a block that is not too long are all there. -/
theorem getElem?_load_inside (m : Memory) (h : Word) {cs : List Cell} (hl : cs.length ≤ Word.count)
    {i : Nat} (hi : i < cs.length) : (m.load h cs)[h.plus i]? = cs[i]? := by
  induction cs generalizing m h i with
  | nil => simp at hi
  | cons c cs ih =>
    simp only [List.length_cons] at hl hi
    cases i with
    | zero =>
      have ho : Outside (h + 1) cs.length (h.plus 0) := by
        intro j hj
        rw [Word.add_one, Word.plus_plus]
        exact Word.plus_ne_plus h (by omega) (by omega) (by omega)
      rw [load, getElem?_load_outside _ ho]
      simp
    | succ i =>
      have hstep : h.plus (i + 1) = (h + 1).plus i := by
        rw [Word.add_one, Word.plus_plus, Nat.add_comm]
      rw [load, hstep, ih _ _ (by omega) (by omega)]
      simp

/-- A cell elsewhere can as well be written before the block. -/
theorem load_insert_comm (m : Memory) {h a : Word} {cs : List Cell} (c : Cell)
    (ho : Outside h cs.length a) : load (m.insert a c) h cs = (m.load h cs).insert a c := by
  induction cs generalizing m h with
  | nil => rfl
  | cons d cs ih =>
    have hne : h ≠ a := by simpa using ho 0 (by simp)
    have hrest : Outside (h + 1) cs.length a := by
      apply Outside.drop (m := 1)
      simpa [Nat.add_comm] using ho
    rw [load, load, insert_comm m c d hne.symm, ih _ hrest]

/-- A write into a block changes one of its cells. -/
theorem insert_load_set (m : Memory) (h : Word) {cs : List Cell} (hl : cs.length ≤ Word.count)
    {i : Nat} (hi : i < cs.length) (c : Cell) :
    (m.load h cs).insert (h.plus i) c = m.load h (cs.set i c) := by
  induction cs generalizing m h i with
  | nil => simp at hi
  | cons d cs ih =>
    simp only [List.length_cons] at hl hi
    cases i with
    | zero =>
      have ho : Outside (h + 1) cs.length h := by
        intro j hj
        rw [Word.add_one, Word.plus_plus]
        simpa using Word.plus_ne_plus h (m := 1 + j) (n := 0) (by omega) (by omega) (by omega)
      rw [load, List.set_cons_zero, load, Word.plus_zero, ← load_insert_comm _ _ ho, insert_insert]
    | succ i =>
      have hstep : h.plus (i + 1) = (h + 1).plus i := by
        rw [Word.add_one, Word.plus_plus, Nat.add_comm]
      rw [load, hstep, ih _ _ (by omega) (by omega), List.set_cons_succ, load]

/-- Memory has the given cells, one after another, from an address on. -/
def Holds (m : Memory) (a : Word) (cells : List Cell) : Prop :=
  ∀ i, i < cells.length → m[a.plus i]? = cells[i]?

/-- Cells one after another are two blocks, the second one behind the first. -/
theorem holds_append {m : Memory} {a : Word} {xs ys : List Cell} :
    m.Holds a (xs ++ ys) ↔ m.Holds a xs ∧ m.Holds (a.plus xs.length) ys := by
  constructor
  · intro h
    refine ⟨fun i hi => ?_, fun i hi => ?_⟩
    · rw [h i (by simp; omega), List.getElem?_append_left hi]
    · rw [Word.plus_plus, h (xs.length + i) (by simp; omega), List.getElem?_append_right (by omega)]
      simp
  · rintro ⟨hx, hy⟩ i hi
    by_cases hl : i < xs.length
    · rw [hx i hl, List.getElem?_append_left hl]
    · have hi' : i - xs.length < ys.length := by simp at hi; omega
      have h := hy (i - xs.length) hi'
      rw [Word.plus_plus, Nat.add_sub_cancel' (by omega)] at h
      rw [h, List.getElem?_append_right (by omega)]

theorem holds_singleton {m : Memory} {a : Word} {c : Cell} : m.Holds a [c] ↔ m[a]? = some c := by
  constructor
  · intro h
    simpa using h 0 (by simp)
  · intro h i hi
    have : i = 0 := by simpa using hi
    subst this
    simpa using h

theorem holds_cons {m : Memory} {a : Word} {c : Cell} {cs : List Cell} :
    m.Holds a (c :: cs) ↔ m[a]? = some c ∧ m.Holds (a.plus 1) cs := by
  rw [← List.singleton_append, holds_append, holds_singleton]
  rfl

def append (m : Memory) (h : Word) (cells : List Cell) : Memory :=
  (m.load h cells).insert hereAddress (.addr (h.plus cells.length))

@[simp] theorem append_here (m : Memory) (h : Word) (cells : List Cell) :
    (m.append h cells)[hereAddress]? = some (.addr (h.plus cells.length)) := by
  simp [append]

/-- Appending cells leaves the others alone. -/
theorem append_outside (m : Memory) {h a : Word} {cells : List Cell} (ha : a ≠ hereAddress)
    (ho : Outside h cells.length a) : (m.append h cells)[a]? = m[a]? := by
  rw [append, getElem?_insert_ne _ _ ha.symm, getElem?_load_outside _ ho]

theorem append_inside (m : Memory) {h : Word} {cells : List Cell} (hl : cells.length ≤ Word.count)
    (hh : Outside h cells.length hereAddress) {i : Nat} (hi : i < cells.length) :
    (m.append h cells)[h.plus i]? = cells[i]? := by
  rw [append, getElem?_insert_ne _ _ (hh i hi).symm, getElem?_load_inside _ _ hl hi]

/-- Cells that are appended in two pieces. -/
theorem append_append (m : Memory) {h : Word} {xs ys : List Cell}
    (hh : Outside h (xs.length + ys.length) hereAddress) :
    (m.append h xs).append (h.plus xs.length) ys = m.append h (xs ++ ys) := by
  -- the first block writes the next free address, which the second one overwrites
  rw [append, append, load_insert_comm _ _ hh.drop, insert_insert, ← load_append, append]
  simp

theorem append_insert_comm (m : Memory) {h a : Word} {cells : List Cell} (c : Cell)
    (ha : a ≠ hereAddress) (ho : Outside h cells.length a) :
    append (m.insert a c) h cells = (m.append h cells).insert a c := by
  rw [append, append, load_insert_comm _ _ ho, insert_comm _ _ _ ha]

/-- A write into the cells that were appended. -/
theorem append_set (m : Memory) {h : Word} {cells : List Cell} (hl : cells.length ≤ Word.count)
    (hh : Outside h cells.length hereAddress) {i : Nat} (hi : i < cells.length) (c : Cell) :
    (m.append h cells).insert (h.plus i) c = m.append h (cells.set i c) := by
  rw [append, insert_comm _ _ _ (hh i hi).symm, insert_load_set _ _ hl hi, append, List.length_set]

end Memory

end ForthMachine
