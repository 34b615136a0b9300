import Mathlib.Algebra.Group.Nat.Defs
import ForthMachine.Text.Numeral
import ForthMachine.Text.Quoted

namespace ForthMachine

namespace Numeral

variable {base n m : Nat} {c : Char}

theorem digitBelow?_digitChar (hb : base ≤ 16) {d : Nat} (hd : d < base) :
    digitBelow? base d.digitChar = some d := by
  have hvalue : ∀ d < 16, digitValue? d.digitChar = some d := by decide
  rw [digitBelow?, hvalue d (by omega), Option.filter_some, if_pos (by simpa using hd)]

theorem readDigits_append (acc : Nat) (ds : List Char) (c : Char) :
    readDigits base acc (ds ++ [c]) =
      (readDigits base acc ds).bind fun n => (digitBelow? base c).map (n * base + ·) := by
  induction ds generalizing acc with
  | nil => cases h : digitBelow? base c <;> simp [readDigits, h]
  | cons d ds ih =>
    rw [List.cons_append, readDigits, readDigits]
    cases digitBelow? base d with
    | none => rfl
    | some k => exact ih _

/-- Digits are read as the number that they were written for. -/
theorem readDigits_toDigits (hb : 1 < base) (hb' : base ≤ 16) (n : Nat) :
    readDigits base 0 (Nat.toDigits base n) = some n := by
  induction n using Nat.strongRecOn with
  | ind n ih =>
    rw [Nat.toDigits_eq_if hb]
    split
    · rename_i hlt
      simp [readDigits, digitBelow?_digitChar hb' hlt]
    · rename_i hge
      have hdiv : n / base < n := Nat.div_lt_self (by omega) hb
      have hmod : n % base < base := Nat.mod_lt n (by omega)
      rw [readDigits_append, ih _ hdiv, Option.bind_some, digitBelow?_digitChar hb' hmod, Option.map_some,
        Nat.div_add_mod']

/-- Numbers are told apart by their digits. -/
theorem toDigits_injective (hb : 1 < base) (hb' : base ≤ 16) : Function.Injective (Nat.toDigits base) := by
  intro n m h
  have hread := congrArg (readDigits base 0) h
  rw [readDigits_toDigits hb hb', readDigits_toDigits hb hb'] at hread
  exact Option.some.inj hread

theorem exists_digitChar (hb : 1 < base) (h : c ∈ Nat.toDigits base n) : ∃ d < base, c = d.digitChar := by
  induction n using Nat.strongRecOn with
  | ind n ih =>
    rw [Nat.toDigits_eq_if hb] at h
    split at h
    · rename_i hlt
      exact ⟨n, hlt, List.mem_singleton.mp h⟩
    · rename_i hge
      rcases List.mem_append.mp h with h | h
      · exact ih _ (Nat.div_lt_self (by omega) hb) h
      · exact ⟨n % base, Nat.mod_lt n (by omega), List.mem_singleton.mp h⟩

/-- A decimal is made of digits and perhaps a sign. -/
theorem mem_digits {i : Int} (h : c ∈ digits i) : c = '-' ∨ ∃ d < 10, c = d.digitChar := by
  unfold digits at h
  split at h
  · rcases List.mem_cons.mp h with h | h
    · exact .inl h
    · exact .inr (exists_digitChar (by decide) h)
  · exact .inr (exists_digitChar (by decide) h)

theorem notMem_digits {i : Int} (hc : c ≠ '-' ∧ ∀ d < 10, c ≠ d.digitChar) : c ∉ digits i := by
  intro h
  rcases mem_digits h with h | ⟨d, hd, h⟩
  · exact hc.1 h
  · exact hc.2 d hd h

/-- Integers are told apart by their notation. -/
theorem digits_injective : Function.Injective digits := by
  have hsign (n : Nat) : '-' ∉ Nat.toDigits 10 n := by
    intro h
    obtain ⟨d, hd, hdigit⟩ := exists_digitChar (by decide) h
    have hne : ∀ d < 10, '-' ≠ d.digitChar := by decide
    exact hne d hd hdigit
  have habs {i j : Int} (h : Nat.toDigits 10 i.natAbs = Nat.toDigits 10 j.natAbs) : i.natAbs = j.natAbs :=
    toDigits_injective (by decide) (by decide) h
  intro i j h
  unfold digits at h
  split at h <;> split at h
  · have := habs (List.cons.inj h).2
    omega
  · exact absurd (h ▸ List.mem_cons_self) (hsign j.natAbs)
  · exact absurd (h ▸ List.mem_cons_self) (hsign i.natAbs)
  · have := habs h
    omega

theorem digits_ne_nil (i : Int) : digits i ≠ [] := by
  unfold digits
  split
  · simp
  · exact Nat.toDigits_ne_nil

@[simp] theorem toList_render (w : Word) : (render w).toList = digits w.toInt := String.toList_ofList

theorem toInt_digits_inj {w w' : Word} (h : digits w.toInt = digits w'.toInt) : w = w' :=
  Int64.toInt_inj.mp (digits_injective h)

end Numeral

namespace Text

open Numeral

variable {quote c d : Char} {width n : Nat} {u v : List Char}

theorem length_hex (hw : 0 < width) (hn : n < 16 ^ width) : (hex width n).length = width := by
  have hlen : (Nat.toDigits 16 n).length ≤ width := (Nat.length_toDigits_le_iff (by decide) hw).mpr hn
  simp only [hex, List.length_append, List.length_replicate]
  omega

theorem readDigits_hex (width n : Nat) : readDigits 16 0 (hex width n) = some n := by
  have hzeros (k : Nat) (ds : List Char) :
      readDigits 16 0 (List.replicate k '0' ++ ds) = readDigits 16 0 ds := by
    induction k with
    | zero => rfl
    | succ k ih =>
      rw [List.replicate_succ, List.cons_append]
      exact ih
  rw [hex, hzeros, readDigits_toDigits (by decide) (by decide)]

theorem newline_notMem_hex (width n : Nat) : '\n' ∉ hex width n := by
  intro h
  have hne : ∀ d < 16, '\n' ≠ d.digitChar := by decide
  rcases List.mem_append.mp h with h | h
  · exact absurd (List.eq_of_mem_replicate h) (by decide)
  · obtain ⟨d, hd, hdigit⟩ := exists_digitChar (by decide) h
    exact hne d hd hdigit

def unletter? (c : Char) : Option Char :=
  if c = 'a' then some '\x07'
  else if c = 'b' then some '\x08'
  else if c = 'f' then some '\x0c'
  else if c = 'n' then some '\n'
  else if c = 'r' then some '\r'
  else if c = 't' then some '\t'
  else if c = 'v' then some '\x0b'
  else none

def readCode (width : Nat) (text : List Char) : Option (Char × List Char) :=
  (readDigits 16 0 (text.take width)).map fun n => (Char.ofNat n, text.drop width)

def unescape? : List Char → Option (Char × List Char)
  | [] => none
  | '\\' :: mark :: rest =>
    if mark = 'x' then readCode 2 rest
    else if mark = 'u' then readCode 4 rest
    else if mark = 'U' then readCode 8 rest
    else some ((unletter? mark).getD mark, rest)
  | c :: rest => some (c, rest)

/-- A code point with a fixed number of digits is read back, whatever comes after it. -/
theorem readCode_hex (hw : 0 < width) (hn : c.toNat < 16 ^ width) (u : List Char) :
    readCode width (hex width c.toNat ++ u) = some (c, u) := by
  have hlen := length_hex hw hn
  rw [readCode, List.take_left' hlen, List.drop_left' hlen, readDigits_hex, Option.map_some,
    Char.ofNat_toNat]

def IsMark (quote : Char) : Prop := quote = '"' ∨ quote = '\x27'

/-- The letter of a named escape stands for one character and announces no code point. -/
theorem unletter?_of_escapeLetter? {letter : Char} (h : escapeLetter? c = some letter) :
    unletter? letter = some c ∧ letter ≠ 'x' ∧ letter ≠ 'u' ∧ letter ≠ 'U' ∧ letter ≠ '\n' := by
  unfold escapeLetter? at h
  repeat' split at h
  all_goals first
    | cases h
      subst c
      decide
    | cases h

/-- The ways in which a character is written: as itself, behind a backslash by itself or by a letter, or by
its code point. -/
inductive Escaped (quote : Char) : Char → List Char → Prop where
  | mark {c : Char} : c = quote ∨ c = '\\' → Escaped quote c ['\\', c]
  | plain {c : Char} : c ≠ quote → c ≠ '\\' → c ≠ '\n' → Escaped quote c [c]
  | letter {c letter : Char} : escapeLetter? c = some letter → Escaped quote c ['\\', letter]
  | code {c sign : Char} {width : Nat} :
      (sign = 'x' ∧ width = 2 ∨ sign = 'u' ∧ width = 4 ∨ sign = 'U' ∧ width = 8) →
      c.toNat < 16 ^ width → Escaped quote c ('\\' :: sign :: hex width c.toNat)

/-- Every character is written in one of these ways. -/
theorem escaped_escape (quote c : Char) : Escaped quote c (escape quote c) := by
  unfold escape
  split
  · rename_i hmark
    exact .mark hmark
  · rename_i hmark
    rw [not_or] at hmark
    split
    · rename_i hprintable
      refine .plain hmark.1 hmark.2 ?_
      rintro rfl
      exact absurd hprintable (by decide)
    · split
      · rename_i hletter
        exact .letter hletter
      · have hbound : c.toNat < 0x110000 := by
          rcases c.valid with h | h
          · exact Nat.lt_trans h (by decide)
          · exact h.2
        split
        · exact .code (.inl ⟨rfl, rfl⟩) (by omega)
        · split
          · exact .code (.inr (.inl ⟨rfl, rfl⟩)) (by omega)
          · exact .code (.inr (.inr ⟨rfl, rfl⟩)) (by omega)

/-- A character is read back from its notation, whatever comes after it. -/
theorem unescape?_escape (hq : IsMark quote) (c : Char) (u : List Char) :
    unescape? (escape quote c ++ u) = some (c, u) := by
  have hescaped := escaped_escape quote c
  generalize escape quote c = text at hescaped
  cases hescaped with
  | mark hc =>
    have hmark : c = '"' ∨ c = '\x27' ∨ c = '\\' := by
      rcases hc with rfl | rfl
      · exact hq.imp id .inl
      · exact .inr (.inr rfl)
    rcases hmark with rfl | rfl | rfl <;> rfl
  | plain _ hc _ => simp [unescape?, hc]
  | letter hl =>
    obtain ⟨hun, hx, hu, hU, -⟩ := unletter?_of_escapeLetter? hl
    simp [unescape?, hx, hu, hU, hun]
  | code hs hn =>
    rcases hs with ⟨rfl, rfl⟩ | ⟨rfl, rfl⟩ | ⟨rfl, rfl⟩ <;> exact readCode_hex (by decide) hn u

/-- Where one quoted character ends and the next one begins is told by the text. -/
theorem escape_append_inj (hq : IsMark quote) (h : escape quote c ++ u = escape quote d ++ v) :
    c = d ∧ u = v := by
  have hread := congrArg unescape? h
  rw [unescape?_escape hq, unescape?_escape hq] at hread
  exact Prod.mk.inj (Option.some.inj hread)

/-- The notation of a character does not start with the quote mark. -/
theorem escape_append_ne (hq : IsMark quote) (c : Char) : escape quote c ++ u ≠ quote :: v := by
  have hslash : '\\' ≠ quote := by
    rcases hq with rfl | rfl <;> decide
  intro h
  have hescaped := escaped_escape quote c
  generalize escape quote c = text at hescaped h
  cases hescaped with
  | mark _ => exact hslash (List.cons.inj h).1
  | plain hc _ _ => exact hc (List.cons.inj h).1
  | letter _ => exact hslash (List.cons.inj h).1
  | code _ _ => exact hslash (List.cons.inj h).1

/-- A quoted character takes one line. -/
theorem newline_notMem_escape (hq : IsMark quote) (c : Char) : '\n' ∉ escape quote c := by
  have hescaped := escaped_escape quote c
  generalize escape quote c = text at hescaped
  cases hescaped with
  | mark hc =>
    have hne : c ≠ '\n' := by
      rcases hc with rfl | rfl
      · rcases hq with rfl | rfl <;> decide
      · decide
    simp [Ne.symm hne]
  | plain _ _ hne => simp [Ne.symm hne]
  | letter hl =>
    obtain ⟨-, -, -, -, hne⟩ := unletter?_of_escapeLetter? hl
    simp [Ne.symm hne]
  | @code sign width hs _ =>
    have hne : '\n' ≠ sign := by
      rcases hs with ⟨rfl, -⟩ | ⟨rfl, -⟩ | ⟨rfl, -⟩ <;> decide
    simp [hne, newline_notMem_hex]

/-- A quoted text ends at the first quote mark outside of an escape. -/
theorem flatMap_escape_append_inj (hq : IsMark quote) {cs ds : List Char}
    (h : cs.flatMap (escape quote) ++ quote :: u = ds.flatMap (escape quote) ++ quote :: v) :
    cs = ds ∧ u = v := by
  induction cs generalizing ds with
  | nil =>
    cases ds with
    | nil => exact ⟨rfl, (List.cons.inj h).2⟩
    | cons d ds =>
      rw [List.flatMap_cons, List.append_assoc] at h
      exact absurd h.symm (escape_append_ne hq d)
  | cons c cs ih =>
    cases ds with
    | nil =>
      rw [List.flatMap_cons, List.append_assoc] at h
      exact absurd h (escape_append_ne hq c)
    | cons d ds =>
      rw [List.flatMap_cons, List.flatMap_cons, List.append_assoc, List.append_assoc] at h
      obtain ⟨rfl, hrest⟩ := escape_append_inj hq h
      obtain ⟨rfl, hend⟩ := ih hrest
      exact ⟨rfl, hend⟩

end Text

end ForthMachine
