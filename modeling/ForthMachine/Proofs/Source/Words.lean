import ForthMachine.Device

namespace ForthMachine.Source

def wordsFrom : Scan → List Char → List String
  | .outside, [] => []
  | .comment, [] => []
  | .inside read, [] => [String.ofList read.reverse]
  | .outside, c :: rest =>
    if c = '\\' then wordsFrom .comment rest
    else if Text.isBlank c then wordsFrom .outside rest
    else wordsFrom (.inside [c]) rest
  | .comment, c :: rest => if c = '\n' then wordsFrom .outside rest else wordsFrom .comment rest
  | .inside read, c :: rest =>
    if Text.isBlank c then String.ofList read.reverse :: wordsFrom .outside rest
    else wordsFrom (.inside (c :: read)) rest

def words (cs : List Char) : List String := wordsFrom .outside cs

def Lexeme.words : Lexeme → List String
  | .delimited word rest => String.ofList word :: Source.words rest
  | .final word => [String.ofList word]
  | .absent => []

/-- What is read first is what one pass over the characters finds first. -/
theorem wordsFrom_eq_words_scan (s : Scan) (cs : List Char) :
    wordsFrom s cs = (scan s cs).words := by
  fun_induction wordsFrom s cs with
  | case1 => rfl
  | case2 => rfl
  | case3 read => rfl
  | case4 rest ih => simpa [scan] using ih
  | case5 c rest hc hb ih => simpa [scan, hc, hb] using ih
  | case6 c rest hc hb ih => simpa [scan, hc, hb] using ih
  | case7 rest ih => simpa [scan] using ih
  | case8 c rest hc ih => simpa [scan, hc] using ih
  | case9 read c rest hb ih => simp [scan, hb, Lexeme.words, words]
  | case10 read c rest hb ih => simpa [scan, hb] using ih

theorem nextWord_of_words_cons {cs : List Char} {w : String} {ws : List String}
    (h : words cs = w :: ws) :
    ∃ rest, nextWord { rest := cs } = (.ok w, { rest }) ∧ words rest = ws := by
  rw [words, wordsFrom_eq_words_scan] at h
  unfold nextWord
  cases hs : scan .outside cs with
  | delimited word rest =>
    simp only [hs, Lexeme.words, List.cons.injEq] at h
    obtain ⟨rfl, rfl⟩ := h
    exact ⟨rest, rfl, rfl⟩
  | final word =>
    simp only [hs, Lexeme.words, List.cons.injEq] at h
    obtain ⟨rfl, rfl⟩ := h
    exact ⟨[], rfl, rfl⟩
  | absent => simp [hs, Lexeme.words] at h

/-- Where there are no words, reading one reports the ending of the source. -/
theorem nextWord_of_words_nil {cs : List Char} (h : words cs = []) :
    nextWord { rest := cs } = (.error .endOfInput, { rest := [] }) := by
  rw [words, wordsFrom_eq_words_scan] at h
  unfold nextWord
  cases hs : scan .outside cs <;> simp_all [Lexeme.words]

end ForthMachine.Source
