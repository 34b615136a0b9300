import ForthMachine.Proofs.Words.Operand
import Mathlib.Data.List.Rotate

namespace ForthMachine

namespace Stack

variable {α β : Type} {row above below : Stack α} {x : α} {n : Word} {i : Nat}

/-- There is no item `n` below the top. -/
def Lacks (s : Stack α) (n : Word) : Prop := n < 0 ∨ s.length ≤ n.toInt

/-- The stack after a number of rolls, all with the same `n`, if none of them fails. -/
def rolls (s : Stack α) (n : Word) : Nat → Option (Stack α)
  | 0 => some s
  | k + 1 => (rolls s n k).bind (roll · n)

/-- The position of an item is its distance from the top. -/
theorem position?_eq_some_iff {s : Stack α} :
    position? s n = some i ↔ n.toInt = i ∧ i < s.length := by
  have hsign : 0 ≤ n ↔ 0 ≤ n.toInt := Int64.le_iff_toInt_le
  unfold position?
  rw [Option.ite_none_right_eq_some, hsign, Option.some.injEq]
  omega

/-- There is no position for an item that the stack lacks. -/
theorem position?_eq_none_iff {s : Stack α} : position? s n = none ↔ Lacks s n := by
  have hsign : 0 ≤ n ↔ ¬ n < 0 := Int64.not_lt.symm
  unfold position? Lacks
  rw [ite_eq_right_iff, hsign]
  simp only [reduceCtorEq, imp_false, not_and_or, not_not, Int.not_lt]

/-- Where there is a position, there is an item. -/
theorem bind_position?_eq_none_iff (s : Stack α) (f : Nat → α → β) :
    ((position? s n).bind fun i => s[i]?.map (f i)) = none ↔ Lacks s n := by
  rw [← position?_eq_none_iff]
  cases hp : position? s n with
  | none => simp
  | some i =>
    have hi := (position?_eq_some_iff.mp hp).2
    simp [hi]

theorem bind_position?_of_toInt (s : Stack α) (f : Nat → α → β) (h : n.toInt = i) :
    ((position? s n).bind fun i => s[i]?.map (f i)) = s[i]?.map (f i) := by
  by_cases hi : i < s.length
  · rw [position?_eq_some_iff.mpr ⟨h, hi⟩, Option.bind_some]
  · have hlacks : Lacks s n := .inr (by omega)
    rw [position?_eq_none_iff.mpr hlacks, List.getElem?_eq_none (by omega)]
    rfl

theorem pick_eq_none_iff (s : Stack α) : pick s n = none ↔ Lacks s n :=
  bind_position?_eq_none_iff s fun _ x => x :: s

theorem roll_eq_none_iff (s : Stack α) : roll s n = none ↔ Lacks s n :=
  bind_position?_eq_none_iff s fun i x => x :: s.eraseIdx i

theorem pick_of_toInt (s : Stack α) (h : n.toInt = i) : pick s n = s[i]?.map (· :: s) :=
  bind_position?_of_toInt s (fun _ x => x :: s) h

theorem roll_of_toInt (s : Stack α) (h : n.toInt = i) : roll s n = s[i]?.map (· :: s.eraseIdx i) :=
  bind_position?_of_toInt s (fun i x => x :: s.eraseIdx i) h

/-- A stack that has the item consists of those above it, the item and those below it. -/
theorem exists_split {s : Stack α} (h : ¬ Lacks s n) :
    ∃ above x below, s = above ++ x :: below ∧ n.toInt = above.length := by
  unfold Lacks at h
  have hpos : 0 ≤ n.toInt := by
    have hle := Int64.le_iff_toInt_le.mp (Int64.not_lt.mp fun hlt => h (.inl hlt))
    simpa using hle
  have hlt : n.toInt.toNat < s.length := by omega
  refine ⟨s.take n.toInt.toNat, s[n.toInt.toNat], s.drop (n.toInt.toNat + 1), ?_, ?_⟩
  · rw [List.getElem_cons_drop, List.take_append_drop]
  · rw [List.length_take]
    omega

/-- A pick puts the item behind those above it on top once more. -/
theorem pick_append (h : n.toInt = above.length) :
    pick (above ++ x :: below) n = some (x :: (above ++ x :: below)) := by
  rw [pick_of_toInt _ h]
  simp

/-- A roll takes the item out from below those above it. -/
theorem roll_append (h : n.toInt = above.length) :
    roll (above ++ x :: below) n = some (x :: (above ++ below)) := by
  rw [roll_of_toInt _ h]
  simp [List.eraseIdx_append_of_length_le]

/-- A roll turns the row down to the item that it brings up. -/
theorem roll_row (h : n.toInt = i) (hrow : row.length = i + 1) :
    roll (row ++ below) n = some (row.rotate i ++ below) := by
  obtain rfl | ⟨above, x, rfl⟩ := List.eq_nil_or_concat row
  · cases hrow
  have habove : above.length = i := by simpa using hrow
  rw [List.concat_eq_append]
  calc roll (above ++ [x] ++ below) n
    _ = roll (above ++ x :: below) n := by rw [List.append_assoc, List.singleton_append]
    _ = some (x :: (above ++ below)) := roll_append (by rw [h, habove])
    _ = some ((above ++ [x]).rotate i ++ below) := by
      rw [← habove, List.rotate_append_length_eq, List.singleton_append, List.cons_append]

/-- Each roll turns the row by `i` places upwards, which is one place down for all of its items but the
one that comes to the top. -/
theorem rolls_row (h : n.toInt = i) (hrow : row.length = i + 1) (k : Nat) :
    rolls (row ++ below) n k = some (row.rotate (i * k) ++ below) := by
  induction k with
  | zero => rw [Nat.mul_zero, List.rotate_zero, rolls]
  | succ k ih =>
    -- the turned row is as long as before, so the next roll turns the same places again
    have hturned : (row.rotate (i * k)).length = i + 1 := by rw [List.length_rotate, hrow]
    calc rolls (row ++ below) n (k + 1)
      _ = (rolls (row ++ below) n k).bind (roll · n) := rfl
      _ = roll (row.rotate (i * k) ++ below) n := by rw [ih, Option.bind_some]
      _ = some ((row.rotate (i * k)).rotate i ++ below) := roll_row h hturned
      _ = some (row.rotate (i * (k + 1)) ++ below) := by rw [List.rotate_rotate, Nat.mul_succ]

/-- A row comes round after as many rolls as it has items. -/
theorem rolls_length (h : n.toInt = i) (hrow : row.length = i + 1) :
    rolls (row ++ below) n (i + 1) = some (row ++ below) := by
  rw [rolls_row h hrow, Nat.mul_comm, ← hrow, List.rotate_length_mul]

/-- Picking and rolling work on every stack that has an item `n` below the top, and fail on every other
one; the parameter stack is then left as it was. Picking puts a copy of the item on top. Rolling moves
the item there and keeps the others in their order. Rolling once for the item and once for each item
above it restores the stack. -/
theorem pick_and_roll_are_exact (s : Stack α) (n : Word) :
    (pick s n = none ↔ Lacks s n) ∧ (roll s n = none ↔ Lacks s n) ∧
    (∀ c : Stack Cell,
      (Operand.rearrange (·.pick n) c = .error (.ofKind .stackUnderflow) c ↔ Lacks c n) ∧
      (Operand.rearrange (·.roll n) c = .error (.ofKind .stackUnderflow) c ↔ Lacks c n)) ∧
    (¬ Lacks s n → ∃ above x below, s = above ++ x :: below ∧ n.toInt = above.length ∧
      pick s n = some (x :: s) ∧ roll s n = some (x :: (above ++ below)) ∧
      rolls s n (above.length + 1) = some s) := by
  refine ⟨pick_eq_none_iff s, roll_eq_none_iff s, fun c => ⟨?_, ?_⟩, fun hlacks => ?_⟩
  · rw [Operand.rearrange_eq_error_iff, pick_eq_none_iff]
  · rw [Operand.rearrange_eq_error_iff, roll_eq_none_iff]
  · obtain ⟨above, x, below, rfl, hn⟩ := exists_split hlacks
    refine ⟨above, x, below, rfl, hn, pick_append hn, roll_append hn, ?_⟩
    have hrow : (above ++ [x]).length = above.length + 1 := List.length_append
    have hround : rolls (above ++ [x] ++ below) n (above.length + 1) = some (above ++ [x] ++ below) :=
      rolls_length hn hrow
    rwa [List.append_assoc, List.singleton_append] at hround

/-- The third of four items is copied, is brought up, and is back in its place after three rolls. -/
theorem third_of_four_comes_round :
    ¬ Lacks ([4, 3, 2, 1] : Stack Nat) 2 ∧
    pick ([4, 3, 2, 1] : Stack Nat) 2 = some [2, 4, 3, 2, 1] ∧
    roll ([4, 3, 2, 1] : Stack Nat) 2 = some [2, 4, 3, 1] ∧
    rolls ([4, 3, 2, 1] : Stack Nat) 2 3 = some [4, 3, 2, 1] := by
  have hlacks : ¬ Lacks ([4, 3, 2, 1] : Stack Nat) 2 := by
    unfold Lacks
    decide
  obtain ⟨-, -, -, hreach⟩ := pick_and_roll_are_exact ([4, 3, 2, 1] : Stack Nat) 2
  obtain ⟨above, x, below, hs, hn, hpick, hroll, hrolls⟩ := hreach hlacks
  have hlength : above.length = 2 := by
    have htwo : (2 : Word).toInt = 2 := rfl
    omega
  obtain ⟨a, b, rfl⟩ := List.length_eq_two.mp hlength
  cases hs
  exact ⟨hlacks, hpick, hroll, hrolls⟩

end Stack

end ForthMachine
