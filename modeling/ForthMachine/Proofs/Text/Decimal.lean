import Mathlib.Data.Nat.Digits.Defs
import ForthMachine.Proofs.Text.Decoding

namespace ForthMachine.Numeral

variable {c : Char} {cs ds : List Char} {n : Int} {w : Word}

def IsDigit (c : Char) : Prop := '0' ≤ c ∧ c ≤ '9'

instance : DecidablePred IsDigit := fun c => inferInstanceAs (Decidable ('0' ≤ c ∧ c ≤ '9'))

def value (ds : List Char) : Nat := Nat.ofDigits 10 (ds.reverse.map fun c => c.toNat - '0'.toNat)

def AreDigits (ds : List Char) : Prop := ds ≠ [] ∧ ∀ c ∈ ds, IsDigit c

/-- The characters are a decimal for a number. -/
inductive Spells : List Char → Int → Prop where
  | unsigned {ds : List Char} : AreDigits ds → Spells ds (value ds)
  | plus {ds : List Char} : AreDigits ds → Spells ('+' :: ds) (value ds)
  | minus {ds : List Char} : AreDigits ds → Spells ('-' :: ds) (-(value ds : Int))

/-- The number is that of some word. -/
def InRange (n : Int) : Prop := -2 ^ 63 ≤ n ∧ n ≤ 2 ^ 63 - 1

instance : DecidablePred InRange := fun n => inferInstanceAs (Decidable (-2 ^ 63 ≤ n ∧ n ≤ 2 ^ 63 - 1))

/-- The range of a word has a word for each of its numbers. -/
theorem exists_toInt_iff : (∃ w : Word, w.toInt = n) ↔ InRange n := by
  constructor
  · rintro ⟨w, rfl⟩
    have hlow := Int64.le_toInt w
    have hhigh := Int64.toInt_lt w
    unfold InRange
    omega
  · rintro ⟨hlow, hhigh⟩
    exact ⟨Int64.ofInt n, Int64.toInt_ofInt_of_le hlow (by omega)⟩

theorem ofInt?_eq_some_iff : Word.ofInt? n = some w ↔ w.toInt = n := by
  have hrange : (-(Word.bound : Int) ≤ n ∧ n < Word.bound) ↔ InRange n := by
    simp only [Word.bound, InRange]
    omega
  rw [Word.ofInt?]
  split
  · rename_i h
    obtain ⟨w', rfl⟩ := exists_toInt_iff.mpr (hrange.mp h)
    rw [Int64.ofInt_toInt, Option.some.injEq, Int64.toInt_inj, eq_comm]
  · rename_i h
    simp only [reduceCtorEq, false_iff]
    exact fun hw => h (hrange.mpr (exists_toInt_iff.mp ⟨w, hw⟩))

theorem digitBelow?_eq_some_iff {d : Nat} :
    digitBelow? 10 c = some d ↔ IsDigit c ∧ d = c.toNat - '0'.toNat := by
  have hle (a b : Char) : a ≤ b ↔ a.toNat ≤ b.toNat := Iff.rfl
  have hzero : '0'.toNat = 48 := rfl
  have hnine : '9'.toNat = 57 := rfl
  simp only [digitBelow?, Option.filter_eq_some_iff, digitValue?, IsDigit]
  by_cases hdigit : '0' ≤ c ∧ c ≤ '9'
  · rw [if_pos hdigit]
    simp only [hle, hzero, hnine] at hdigit ⊢
    simp only [Option.some.injEq, decide_eq_true_eq]
    omega
  · -- a letter counts ten or more
    rw [if_neg hdigit]
    simp only [hdigit, false_and, iff_false, not_and, decide_eq_true_eq]
    intro h
    split at h
    · cases h
      omega
    · split at h
      · cases h
        omega
      · cases h

theorem value_cons (c : Char) (ds : List Char) :
    value (c :: ds) = (c.toNat - '0'.toNat) * 10 ^ ds.length + value ds := by
  rw [value, List.reverse_cons, List.map_append, Nat.ofDigits_append, value]
  simp [Nat.mul_comm, Nat.add_comm]

/-- Digits are read from the left, each one after all before it were counted tenfold. -/
theorem readDigits_eq_some_iff (acc k : Nat) (ds : List Char) :
    readDigits 10 acc ds = some k ↔ (∀ c ∈ ds, IsDigit c) ∧ k = acc * 10 ^ ds.length + value ds := by
  induction ds generalizing acc with
  | nil => simp [readDigits, value, eq_comm]
  | cons c ds ih =>
    rw [readDigits, Option.bind_eq_some_iff, List.forall_mem_cons]
    constructor
    · rintro ⟨d, hd, hrest⟩
      obtain ⟨hc, rfl⟩ := digitBelow?_eq_some_iff.mp hd
      obtain ⟨hds, rfl⟩ := (ih _).mp hrest
      refine ⟨⟨hc, hds⟩, ?_⟩
      rw [value_cons, List.length_cons, Nat.pow_succ, Nat.add_mul, Nat.mul_assoc, Nat.mul_comm 10]
      omega
    · rintro ⟨⟨hc, hds⟩, rfl⟩
      refine ⟨c.toNat - '0'.toNat, digitBelow?_eq_some_iff.mpr ⟨hc, rfl⟩, (ih _).mpr ⟨hds, ?_⟩⟩
      rw [value_cons, List.length_cons, Nat.pow_succ, Nat.add_mul, Nat.mul_assoc, Nat.mul_comm 10]
      omega

/-- What stands behind the sign is read as digits. -/
theorem readDigits_of_areDigits (h : AreDigits ds) :
    ds.isEmpty = false ∧ readDigits 10 0 ds = some (value ds) := by
  refine ⟨List.isEmpty_eq_false_iff.mpr h.1, (readDigits_eq_some_iff 0 _ ds).mpr ⟨h.2, ?_⟩⟩
  omega

/-- What is read as digits are digits, with the value that the grammar gives them. -/
theorem areDigits_of_readDigits {k : Nat} (he : ds.isEmpty = false) (h : readDigits 10 0 ds = some k) :
    AreDigits ds ∧ k = value ds := by
  obtain ⟨hds, rfl⟩ := (readDigits_eq_some_iff 0 k ds).mp h
  refine ⟨⟨List.isEmpty_eq_false_iff.mp he, hds⟩, ?_⟩
  omega

theorem splitSign_of_areDigits (h : AreDigits ds) : splitSign ds = (false, ds) := by
  obtain ⟨hne, hds⟩ := h
  obtain ⟨c, ds, rfl⟩ := List.exists_cons_of_ne_nil hne
  have hc : IsDigit c := hds c List.mem_cons_self
  have hplus : c ≠ '+' := by
    rintro rfl
    exact absurd hc (by decide)
  have hminus : c ≠ '-' := by
    rintro rfl
    exact absurd hc (by decide)
  unfold splitSign
  split
  · simp_all
  · simp_all
  · rfl

/-- A sign and digits behind it are a decimal. -/
theorem spells_of_splitSign {negative : Bool} (hs : splitSign cs = (negative, ds)) (h : AreDigits ds) :
    Spells cs (if negative then -(value ds : Int) else value ds) := by
  unfold splitSign at hs
  split at hs <;> cases hs
  · exact .plus h
  · exact .minus h
  · exact .unsigned h

/-- Exactly the decimals for the numbers of words are read. -/
theorem decimal?_eq_some_iff : decimal? cs = some w ↔ Spells cs w.toInt := by
  constructor
  · intro h
    rw [decimal?] at h
    generalize hs : splitSign cs = split at h
    obtain ⟨negative, ds⟩ := split
    by_cases he : ds.isEmpty = true
    · simp [he] at h
    · simp only [he, Bool.false_eq_true, ↓reduceIte, Option.bind_eq_some_iff] at h
      obtain ⟨k, hk, hw⟩ := h
      obtain ⟨hds, rfl⟩ := areDigits_of_readDigits (by simpa using he) hk
      rw [ofInt?_eq_some_iff.mp hw]
      exact spells_of_splitSign hs hds
  · intro hspells
    have hread {negative : Bool} {ds : List Char} (hs : splitSign cs = (negative, ds)) (hds : AreDigits ds)
        (hvalue : w.toInt = if negative then -(value ds : Int) else value ds) : decimal? cs = some w := by
      obtain ⟨he, hk⟩ := readDigits_of_areDigits hds
      simp only [decimal?, hs, he, Bool.false_eq_true, ↓reduceIte, hk, Option.bind_some, signed?]
      exact ofInt?_eq_some_iff.mpr hvalue
    generalize hn : w.toInt = n at hspells hread
    cases hspells with
    | unsigned h => exact hread (splitSign_of_areDigits h) h rfl
    | plus h => exact hread rfl h rfl
    | minus h => exact hread rfl h rfl

/-- Programs refuse a text unless it is a decimal in the range of a word. -/
theorem decimal?_eq_none_iff : decimal? cs = none ↔ ∀ n, Spells cs n → ¬InRange n := by
  rw [Option.eq_none_iff_forall_ne_some]
  constructor
  · intro h n hs hn
    obtain ⟨w, rfl⟩ := exists_toInt_iff.mpr hn
    exact h w (decimal?_eq_some_iff.mpr hs)
  · intro h w hw
    exact h w.toInt (decimal?_eq_some_iff.mp hw) (exists_toInt_iff.mp ⟨w, rfl⟩)

/-- A word is read back from its spelling. -/
theorem decimal?_digits (w : Word) : decimal? (digits w.toInt) = some w := by
  have hdigits (k : Nat) : AreDigits (Nat.toDigits 10 k) ∧ value (Nat.toDigits 10 k) = k := by
    have hread : readDigits 10 0 (Nat.toDigits 10 k) = some k :=
      readDigits_toDigits (by decide) (by decide) k
    obtain ⟨hds, hk⟩ := (readDigits_eq_some_iff 0 k _).mp hread
    refine ⟨⟨Nat.toDigits_ne_nil, hds⟩, ?_⟩
    omega
  obtain ⟨hds, hvalue⟩ := hdigits w.toInt.natAbs
  rw [decimal?_eq_some_iff]
  unfold digits
  split
  · have hs := Spells.minus hds
    rw [hvalue] at hs
    rwa [show -(w.toInt.natAbs : Int) = w.toInt by omega] at hs
  · have hs := Spells.unsigned hds
    rw [hvalue] at hs
    rwa [show (w.toInt.natAbs : Int) = w.toInt by omega] at hs

end ForthMachine.Numeral
