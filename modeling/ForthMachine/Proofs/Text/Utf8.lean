import ForthMachine.Text.Encoding

namespace ForthMachine

namespace Octets

theorem toList_eq_data (bytes : ByteArray) : bytes.toList = bytes.data.toList := by
  have hloop (i : Nat) (read : List UInt8) :
      ByteArray.toList.loop bytes i read = read.reverse ++ bytes.data.toList.drop i := by
    fun_induction ByteArray.toList.loop bytes i read with
    | case1 i read hi ih =>
      have hlt : i < bytes.data.toList.length := hi
      have hget : bytes.get! i = bytes.data.toList[i] := by
        change bytes.data[i]! = _
        rw [getElem!_pos bytes.data i hi, Array.getElem_toList]
      rw [ih, hget, List.drop_eq_getElem_cons hlt, List.reverse_cons, List.append_assoc,
        List.singleton_append]
    | case2 i read hi =>
      have hle : bytes.data.toList.length ≤ i := Nat.le_of_not_lt hi
      rw [List.drop_eq_nil_of_le hle, List.append_nil]
  exact hloop 0 []

/-- The bytes of a text are those of its characters. -/
theorem ofString_eq (s : String) : ofString s = s.toList.flatMap String.utf8EncodeChar := by
  rw [ofString, toList_eq_data, String.toUTF8_eq_toByteArray, ← String.utf8Encode_toList, List.utf8Encode,
    List.toList_data_toByteArray]

end Octets

namespace Text.Utf8

variable {b : Nat} {p : Pending} {rest : List UInt8}

theorem decode_cons (pending : Option Pending) (b : UInt8) (rest : List UInt8) :
    decode true pending (b :: rest) =
      (advance pending b.toNat).1 ++ decode true (advance pending b.toNat).2 rest := by
  simp [decode]

/-- A byte of the lower half is a character by itself. -/
theorem advance_single (hb : b < 0x80) : advance none b = ([Char.ofNat b], none) := by
  simp [advance, start, hb]

/-- Any other first byte leaves a character pending. -/
theorem advance_lead (hb : 0x80 ≤ b) (hp : lead? b = some p) : advance none b = ([], some p) := by
  simp [advance, start, hp, Nat.not_lt.mpr hb]

/-- A byte in the middle leaves one byte less to be owed. -/
theorem advance_more (hb : p.low ≤ b ∧ b ≤ p.high) (ho : p.owed ≠ 1) :
    advance (some p) b = ([], some { owed := p.owed - 1, value := p.value * 64 + (b - 0x80) }) := by
  simp [advance, hb, ho]

/-- The last byte completes the character. -/
theorem advance_last (hb : p.low ≤ b ∧ b ≤ p.high) (ho : p.owed = 1) :
    advance (some p) b = ([Char.ofNat (p.value * 64 + (b - 0x80))], none) := by
  simp [advance, hb, ho]

theorem lead?_two (h : 2 ≤ b) (h' : b < 32) : lead? (b + 0xC0) = some { owed := 1, value := b } := by
  rw [lead?, if_neg (by omega), if_pos (by omega), Nat.add_sub_cancel]

/-- The first of three bytes leaves open the range of the second, up to overlong forms and surrogates. -/
theorem lead?_three (h : b < 16) {x : Nat} (hx : x < 64) (hlow : b = 0 → 32 ≤ x)
    (hhigh : b = 13 → x < 32) :
    ∃ p, lead? (b + 0xE0) = some p ∧ p.owed = 2 ∧ p.value = b ∧ p.low ≤ x + 0x80 ∧ x + 0x80 ≤ p.high := by
  unfold lead?
  rw [if_neg (by omega), if_neg (by omega)]
  split
  · have := hlow (by omega)
    exact ⟨_, rfl, rfl, by simp only; omega, by simp only; omega, by simp only; omega⟩
  · split
    · have := hhigh (by omega)
      exact ⟨_, rfl, rfl, by simp only; omega, by simp only; omega, by simp only; omega⟩
    · rw [if_pos (by omega)]
      exact ⟨_, rfl, rfl, by simp, by simp only; omega, by simp only; omega⟩

/-- The first of four bytes leaves open the range of the second, up to overlong forms and the end of the
code points. -/
theorem lead?_four (h : b < 5) {x : Nat} (hx : x < 64) (hlow : b = 0 → 16 ≤ x)
    (hhigh : b = 4 → x < 16) :
    ∃ p, lead? (b + 0xF0) = some p ∧ p.owed = 3 ∧ p.value = b ∧ p.low ≤ x + 0x80 ∧ x + 0x80 ≤ p.high := by
  unfold lead?
  rw [if_neg (by omega), if_neg (by omega), if_neg (by omega), if_neg (by omega), if_neg (by omega)]
  split
  · have := hlow (by omega)
    exact ⟨_, rfl, rfl, by simp only; omega, by simp only; omega, by simp only; omega⟩
  · split
    · exact ⟨_, rfl, rfl, by simp, by simp only; omega, by simp only; omega⟩
    · have := hhigh (by omega)
      rw [if_pos (by omega)]
      exact ⟨_, rfl, rfl, by simp only; omega, by simp only; omega, by simp only; omega⟩

theorem ofNat_toNat {v : Nat} {c : Char} (h : v = c.toNat) : Char.ofNat v = c := by
  rw [h, Char.ofNat_toNat]

/-- A character is read from its bytes, and what follows is read as it would be alone. -/
theorem decode_utf8EncodeChar (c : Char) (rest : List UInt8) :
    decode true none (String.utf8EncodeChar c ++ rest) = c :: decode true none rest := by
  have hvalid : c.toNat < 0xD800 ∨ 0xDFFF < c.toNat ∧ c.toNat < 0x110000 := c.valid
  have hbyte {v : Nat} (hv : v < 256) : (UInt8.ofNat v).toNat = v := by
    rw [UInt8.toNat_ofNat']
    exact Nat.mod_eq_of_lt hv
  have hval : c.val.toNat = c.toNat := rfl
  generalize hv : c.toNat = v at hvalid hval
  simp only [String.utf8EncodeChar, hval]
  split
  · rw [List.singleton_append, decode_cons, hbyte (by omega), advance_single (by omega), List.singleton_append,
      ofNat_toNat hv.symm]
  · split
    · have hlead := lead?_two (b := v / 64 % 32) (by omega) (by omega)
      simp only [List.cons_append, List.nil_append, decode_cons]
      rw [hbyte (by omega), hbyte (by omega), advance_lead (by omega) hlead,
        advance_last (by simp only; omega) rfl]
      simp only [List.nil_append, List.singleton_append]
      rw [ofNat_toNat (c := c) (by omega)]
    · split
      · obtain ⟨p, hlead, howed, hvalue, hlow, hhigh⟩ := lead?_three (b := v / 4096 % 16) (x := v / 64 % 64)
          (by omega) (by omega) (by omega) (by omega)
        simp only [List.cons_append, List.nil_append, decode_cons]
        rw [hbyte (by omega), hbyte (by omega), hbyte (by omega), advance_lead (by omega) hlead,
          advance_more ⟨hlow, hhigh⟩ (by omega), advance_last (by simp only; omega) (by simp only; omega)]
        simp only [List.nil_append, List.singleton_append, hvalue]
        rw [ofNat_toNat (c := c) (by omega)]
      · obtain ⟨p, hlead, howed, hvalue, hlow, hhigh⟩ := lead?_four (b := v / 262144 % 8)
          (x := v / 4096 % 64) (by omega) (by omega) (by omega) (by omega)
        simp only [List.cons_append, List.nil_append, decode_cons]
        rw [hbyte (by omega), hbyte (by omega), hbyte (by omega), hbyte (by omega),
          advance_lead (by omega) hlead, advance_more ⟨hlow, hhigh⟩ (by omega),
          advance_more (by simp only; omega) (by simp only; omega),
          advance_last (by simp only; omega) (by simp only; omega)]
        simp only [List.nil_append, List.singleton_append, hvalue]
        rw [ofNat_toNat (c := c) (by omega)]

/-- The bytes of a text are read as its characters. -/
theorem decode_ofString (s : String) : decode true none (Octets.ofString s) = s.toList := by
  rw [Octets.ofString_eq]
  induction s.toList with
  | nil => rfl
  | cons c cs ih => rw [List.flatMap_cons, decode_utf8EncodeChar, ih]

end Text.Utf8

/-- A text in UTF-8 is a source of its characters. -/
theorem Encoding.source_ofString (s : String) :
    Encoding.utf8.source (Octets.ofString s) .endOfInput = { rest := s.toList } := by
  simp [source, isTooShort, characters, Text.Utf8.decode_ofString]

end ForthMachine
