import ForthMachine.Proofs.Machine.Reading

namespace ForthMachine

namespace Grammar

def inWord (c : Char) : Bool := !Text.isBlank c

def afterLine (cs : List Char) : List Char := (cs.dropWhile (· ≠ '\n')).drop 1

theorem length_afterLine (cs : List Char) : (afterLine cs).length ≤ cs.length := by
  have hdrop := (List.dropWhile_sublist (l := cs) (p := (· ≠ '\n'))).length_le
  rw [afterLine, List.length_drop]
  omega

def skip : List Char → List Char
  | [] => []
  | c :: rest =>
    if Text.isBlank c then skip rest
    else if c = '\\' then skip (afterLine rest)
    else c :: rest
termination_by cs => cs.length
decreasing_by
  · exact Nat.lt_succ_self _
  · exact Nat.lt_succ_of_le (length_afterLine rest)

def word (cs : List Char) : List Char := (skip cs).takeWhile inWord

def behind (cs : List Char) : List Char := (skip cs).dropWhile inWord

inductive Filler : List Char → Prop where
  | nil : Filler []
  | blank {c : Char} {f : List Char} (hb : Text.isBlank c = true) (hf : Filler f) : Filler (c :: f)
  | comment {line f : List Char} (hl : '\n' ∉ line) (hf : Filler f) :
    Filler ('\\' :: (line ++ '\n' :: f))

/-- A text that can stand as one word: not empty, without blanks, and no comment. -/
structure IsWord (w : String) : Prop where
  nonempty : w.toList ≠ []
  solid : ∀ c ∈ w.toList, inWord c = true
  start : w.toList.head? ≠ some '\\'

/-- Some characters that write down a list of words. After each word comes a blank, and then as many
blanks and comments as one likes; so they may in front of the first word, and nothing has to come after
the last one. -/
inductive Writes : List String → List Char → Prop where
  | filler {f : List Char} (hf : Filler f) : Writes [] f
  | last {f : List Char} {w : String} (hf : Filler f) (hw : IsWord w) : Writes [w] (f ++ w.toList)
  | more {f cs : List Char} {c : Char} {w : String} {ws : List String} (hf : Filler f) (hw : IsWord w)
    (hb : Text.isBlank c = true) (hs : Writes ws cs) : Writes (w :: ws) (f ++ (w.toList ++ c :: cs))

variable {c : Char} {cs f line : List Char} {ws : List String} {w : String}

theorem skip_blank (hb : Text.isBlank c = true) (cs : List Char) : skip (c :: cs) = skip cs := by
  rw [skip, if_pos hb]

theorem skip_comment (cs : List Char) : skip ('\\' :: cs) = skip (afterLine cs) := by
  rw [skip, if_neg (by decide), if_pos rfl]

theorem skip_word (hb : Text.isBlank c = false) (hc : c ≠ '\\') (cs : List Char) :
    skip (c :: cs) = c :: cs := by
  rw [skip, if_neg (by simp [hb]), if_neg hc]

/-- Nothing is left in front of what is left. -/
theorem skip_cases (cs : List Char) :
    skip cs = [] ∨ ∃ c rest, skip cs = c :: rest ∧ Text.isBlank c = false ∧ c ≠ '\\' := by
  fun_induction skip cs with
  | case1 => exact .inl rfl
  | case2 c rest hb ih => exact ih
  | case3 rest hb ih => exact ih
  | case4 c rest hb hc => exact .inr ⟨c, rest, rfl, by simpa using hb, hc⟩

theorem length_skip (cs : List Char) : (skip cs).length ≤ cs.length := by
  fun_induction skip cs with
  | case1 => exact Nat.le_refl _
  | case2 c rest hb ih => exact Nat.le_succ_of_le ih
  | case3 rest hb ih =>
    have hline := length_afterLine rest
    rw [List.length_cons]
    omega
  | case4 c rest hb hc => exact Nat.le_refl _

/-- A word and the blank after it make what is left shorter. -/
theorem length_behind (h : skip cs ≠ []) : ((behind cs).drop 1).length < cs.length := by
  have hskip := length_skip cs
  have hdrop := (List.dropWhile_sublist (l := skip cs) (p := inWord)).length_le
  have hpos := List.length_pos_iff.mpr h
  rw [List.length_drop, behind]
  omega

/-- All words. After a word and the blank that ends it, the next one is looked for. -/
def words (cs : List Char) : List String :=
  if skip cs = [] then [] else String.ofList (word cs) :: words ((behind cs).drop 1)
termination_by cs.length
decreasing_by exact length_behind ‹_›

theorem words_of_skip_nil (h : skip cs = []) : words cs = [] := by
  rw [words, if_pos h]

/-- The first word, and then those behind the blank that ends it. -/
theorem words_of_skip_ne (h : skip cs ≠ []) :
    words cs = String.ofList (word cs) :: words ((behind cs).drop 1) := by
  rw [words, if_neg h]

/-- There is no word in blanks and comments alone. -/
theorem words_eq_nil_iff : words cs = [] ↔ skip cs = [] := by
  refine ⟨fun h => ?_, words_of_skip_nil⟩
  rw [words] at h
  split at h
  case isTrue hnil => exact hnil
  case isFalse => cases h

theorem afterLine_append (hl : '\n' ∉ line) (cs : List Char) : afterLine (line ++ '\n' :: cs) = cs := by
  have hline : ∀ c ∈ line, decide (c ≠ '\n') = true := by
    intro c hc
    exact decide_eq_true fun he => hl (he ▸ hc)
  rw [afterLine, List.dropWhile_append_of_pos hline, List.dropWhile_cons_of_neg (by decide), List.drop_one,
    List.tail_cons]

/-- Blanks and comments in front of a word are skipped, whatever comes after them. -/
theorem Filler.skip_append (hf : Filler f) (cs : List Char) : skip (f ++ cs) = skip cs := by
  induction hf with
  | nil => rfl
  | blank hb _ ih => rw [List.cons_append, skip_blank hb, ih]
  | comment hl _ ih =>
    rw [List.cons_append, skip_comment, List.append_assoc, List.cons_append, afterLine_append hl, ih]

/-- Nothing of a word is skipped. -/
theorem IsWord.skip_append (hw : IsWord w) (cs : List Char) : skip (w.toList ++ cs) = w.toList ++ cs := by
  obtain ⟨c, rest, hcons⟩ := List.exists_cons_of_ne_nil hw.nonempty
  have hb : Text.isBlank c = false := by
    have hin := hw.solid c (by simp [hcons])
    simpa [inWord] using hin
  have hc : c ≠ '\\' := by
    have hstart := hw.start
    rw [hcons] at hstart
    simpa using hstart
  rw [hcons, List.cons_append, skip_word hb hc]

/-- A word is read back from behind blanks and comments, if it ends there or a blank comes after it. -/
theorem words_of_isWord (hf : Filler f) (hw : IsWord w) (hcs : cs.dropWhile inWord = cs) :
    words (f ++ (w.toList ++ cs)) = w :: words (cs.drop 1) := by
  have hskip : skip (f ++ (w.toList ++ cs)) = w.toList ++ cs := by rw [hf.skip_append, hw.skip_append]
  have hnone : cs.takeWhile inWord = [] := by
    have hsplit := List.takeWhile_append_dropWhile (p := inWord) (l := cs)
    rw [hcs] at hsplit
    exact List.append_left_eq_self.mp hsplit
  have hword : word (f ++ (w.toList ++ cs)) = w.toList := by
    rw [word, hskip, List.takeWhile_append_of_pos hw.solid, hnone, List.append_nil]
  have hbehind : behind (f ++ (w.toList ++ cs)) = cs := by
    rw [behind, hskip, List.dropWhile_append_of_pos hw.solid, hcs]
  have hne : skip (f ++ (w.toList ++ cs)) ≠ [] := by
    rw [hskip]
    exact List.append_ne_nil_of_left_ne_nil hw.nonempty cs
  rw [words_of_skip_ne hne, hword, hbehind, String.ofList_toList]

/-- What writes down some words is read as these words. -/
theorem Writes.words (h : Writes ws cs) : words cs = ws := by
  induction h with
  | filler hf =>
    apply words_of_skip_nil
    have hskip := hf.skip_append []
    rw [List.append_nil] at hskip
    rw [hskip, skip]
  | last hf hw =>
    have hread := words_of_isWord hf hw (List.dropWhile_nil (p := inWord))
    rw [List.append_nil] at hread
    rw [hread, List.drop_nil, words_of_skip_nil (by rw [skip])]
  | more hf hw hb _ ih =>
    rw [words_of_isWord hf hw (List.dropWhile_cons_of_neg (by simp [inWord, hb])), List.drop_one,
      List.tail_cons, ih]

end Grammar

namespace Source

open Grammar

variable {s : Source} {cs : List Char}

/-- The reader leaves a comment at the end of its line. -/
theorem scan_comment (cs : List Char) : scan .comment cs = scan .outside (afterLine cs) := by
  induction cs with
  | nil => rfl
  | cons c rest ih =>
    by_cases hc : c = '\n'
    · subst hc
      rfl
    · rw [scan, if_neg hc, ih, afterLine, afterLine, List.dropWhile_cons_of_pos (by simpa using hc)]

/-- The reader skips the same characters as the grammar. -/
theorem scan_skip (cs : List Char) : scan .outside cs = scan .outside (skip cs) := by
  fun_induction skip cs with
  | case1 => rfl
  | case2 c rest hb ih =>
    have hc : c ≠ '\\' := by
      rintro rfl
      exact absurd hb (by decide)
    rw [← ih, scan, if_neg hc, if_pos hb]
  | case3 rest hb ih => rw [← ih, scan, if_pos rfl, scan_comment]
  | case4 c rest hb hc => rfl

/-- Inside a word only a blank or the end of the characters counts. -/
theorem scan_inside (read cs : List Char) :
    scan (.inside read) cs =
      match cs.dropWhile inWord with
      | [] => .final (read.reverse ++ cs.takeWhile inWord)
      | _ :: rest => .delimited (read.reverse ++ cs.takeWhile inWord) rest := by
  induction cs generalizing read with
  | nil => simp [scan]
  | cons c rest ih =>
    by_cases hb : Text.isBlank c = true
    · rw [scan, if_pos hb]
      simp [inWord, hb]
    · rw [scan, if_neg hb, ih]
      simp [inWord, hb]

/-- What the reader finds is the next word of the grammar and what follows it. -/
theorem scan_outside (cs : List Char) :
    scan .outside cs =
      if skip cs = [] then .absent
      else match behind cs with
        | [] => .final (word cs)
        | _ :: rest => .delimited (word cs) rest := by
  rw [scan_skip, behind, word]
  rcases skip_cases cs with hnil | ⟨c, rest, hskip, hb, hc⟩
  · simp [hnil, scan]
  · have hin : inWord c = true := by simp [inWord, hb]
    rw [hskip, if_neg (List.cons_ne_nil c rest), scan, if_neg hc, if_neg (by simp [hb]), scan_inside,
      List.dropWhile_cons_of_pos hin, List.takeWhile_cons_of_pos hin]
    rfl

/-- A word is read if a blank or the end of the input ends it. -/
theorem nextWord_of_skip_ne (h : skip s.rest ≠ [])
    (hend : s.ending = .endOfInput ∨ behind s.rest ≠ []) :
    s.nextWord = (.ok (String.ofList (word s.rest)), { s with rest := (behind s.rest).drop 1 }) := by
  rw [nextWord, scan_outside, if_neg h]
  cases hb : behind s.rest with
  | nil =>
    have he : s.ending = .endOfInput := hend.resolve_right (absurd hb)
    simp [he]
  | cons c rest => rfl

/-- Where there is no word, the reader comes to the end of the input. -/
theorem nextWord_of_skip_nil (h : skip s.rest = []) :
    s.nextWord = (.error s.ending, { s with rest := [] }) := by
  rw [nextWord, scan_outside, if_pos h]

/-- A device that fails before a blank has ended the word fails the reader. -/
theorem nextWord_of_failure {message : String} (h : behind s.rest = [])
    (he : s.ending = .failure message) :
    s.nextWord = (.error s.ending, { s with rest := [] }) := by
  by_cases hs : skip s.rest = []
  · exact nextWord_of_skip_nil hs
  · rw [nextWord, scan_outside, if_neg hs, h]
    simp [he]

/-- The words in one pass are those of the grammar. -/
theorem words_eq_grammar (cs : List Char) : words cs = Grammar.words cs := by
  fun_induction Grammar.words cs with
  | case1 cs h => rw [words, wordsFrom_eq_words_scan, scan_outside, if_pos h, Lexeme.words]
  | case2 cs h ih =>
    rw [words, wordsFrom_eq_words_scan, scan_outside, if_neg h, ← ih]
    cases behind cs with
    | nil => rfl
    | cons c rest => rfl

end Source

namespace Machine

open State Grammar

section Words

variable {m m' m₁ : Machine} {w a : Word} {s : Source} {text : String} {f : Failure} {M : Memory}
  {D : Dictionary} {R : Stack Word} {S : Stack Cell} {output : Option Sink} {cs rest : List Char}
  {ws : List String}

/-- A step in which WORD puts a text on the stack and leaves a source as the input. WORD is started on
`m₁`, when the words that hand over to it have taken what they need, and the step is noted in the trace. -/
def TakesWord (m m₁ : Machine) (text : String) (s : Source) : Prop :=
  step m = .ok () (noteStack {
    state := { m.state with
      ip := m.state.ip + 1, nip := m.state.ip + 2, stack := .text text :: m₁.state.stack }
    console := { m₁.console with input := some s } })

/-- A step in which WORD, started on `m₁`, reads its input to the end and stops there with a trap. -/
def FindsNoWord (m m₁ : Machine) (kind : Trap.Kind) (cause : Option String) : Prop :=
  ∃ trap m', step m = .error trap m' ∧ trap.kind = kind ∧ trap.cause = cause ∧ trap.word = "WORD" ∧
    m'.state = { m.state with nip := m.state.ip + 1, stack := m₁.state.stack } ∧
    m'.console = Console.note
      { m₁.console with input := m₁.console.input.map ({ · with rest := [] }) } "\n"

/-- WORD puts the word that it has read on the stack. -/
theorem takesWord_of_nextWord {s' : Source} (hr : Runs m w (.builtin .word) m₁)
    (hi : m₁.console.input = some s) (hw : s.nextWord = (.ok text, s')) : TakesWord m m₁ text s' := by
  have htwo : m.state.ip + 1 + 1 = m.state.ip + 2 := Int64.add_assoc _ _ _
  rw [TakesWord, step_of_runs_performs hr (consumes_word.perform (nextWord_of_word hi hw)), state_of_runs hr, htwo]

theorem findsNoWord_of_nextWord {t : Trap} (hr : Runs m w (.builtin .word) m₁)
    (hw : Terminal.nextWord m₁ = .error (.trap t) { m₁ with
      console.input := m₁.console.input.map ({ · with rest := [] }) }) (ht : t.word = "") :
    FindsNoWord m m₁ t.kind t.cause := by
  have hstate : m₁.state = { m.state with nip := m.state.ip + 1, stack := m₁.state.stack } :=
    state_of_runs hr
  exact ⟨_, _, step_of_runs_raises hr (consumes_word.perform_error hw) ht, rfl, rfl, rfl, hstate, rfl⟩

/-- The whole source has been read, and ends as it does. -/
theorem findsNoWord_of_source (hr : Runs m w (.builtin .word) m₁) (hi : m₁.console.input = some s)
    (hw : s.nextWord = (.error s.ending, { s with rest := [] })) :
    (s.ending = .endOfInput → FindsNoWord m m₁ .endOfInput none) ∧
      ∀ message, s.ending = .failure message → FindsNoWord m m₁ .ioFailure (some message) := by
  have hnext := nextWord_of_no_word hi hw
  have hinput : some { s with rest := [] } = m₁.console.input.map ({ · with rest := [] }) := by
    rw [hi, Option.map_some]
  rw [hinput] at hnext
  refine ⟨fun he => ?_, fun message he => ?_⟩
  · rw [he] at hnext
    exact findsNoWord_of_nextWord hr hnext rfl
  · rw [he] at hnext
    exact findsNoWord_of_nextWord hr hnext rfl

/-- Without an input WORD stops as at the end of one. -/
theorem findsNoWord_of_no_input (hr : Runs m w (.builtin .word) m₁) (hi : m₁.console.input = none) :
    FindsNoWord m m₁ .endOfInput none := by
  have hnext : Terminal.nextWord m₁ = .error (.ofKind .endOfInput) { m₁ with
      console.input := m₁.console.input.map ({ · with rest := [] }) } := by
    rw [Terminal.nextWord, onConsole_apply, Terminal.read_apply, hi]
    rfl
  exact findsNoWord_of_nextWord hr hnext rfl

def Repeats (M : Memory) (a : Word) : Prop :=
  ∃ word branch, M.Holds a [.ref word, .ref branch, .int (-2)] ∧ M[word]? = some (.builtin .word) ∧
    M[branch]? = some (.builtin .branch)

/-- One turn of the loop. -/
theorem leads_repeats (hl : Repeats M a) (hw : ({ rest := cs } : Source).nextWord = (.ok text, { rest })) :
    Leads (Shows (running M D a R S) (some { rest := cs }) output)
      (Shows (running M D a R (.text text :: S)) (some { rest }) output) := by
  obtain ⟨word, branch, hcells, hword, hbranch⟩ := hl
  exact (consumes_word.leads (Memory.holds_cons.mp hcells).1 hword hw).trans (leads_back hcells hbranch)

/-- The loop, by induction on the words that are left. -/
theorem fails_repeats (hl : Repeats M a) (hws : Source.words cs = ws) :
    Fails (Shows (running M D a R S) (some { rest := cs }) output) .endOfInput "WORD"
      (Shows (running M D a R (ws.reverse.map .text ++ S)) (some { rest := [] }) output) := by
  induction ws generalizing cs S with
  | nil =>
    obtain ⟨word, branch, hcells, hword, -⟩ := hl
    exact consumes_word.fails (Memory.holds_cons.mp hcells).1 hword (Source.nextWord_of_words_nil hws)
  | cons text ws ih =>
    obtain ⟨rest, hnext, hrest⟩ := Source.nextWord_of_words_cons hws
    rw [List.reverse_cons, List.map_append, List.append_assoc]
    exact (leads_repeats hl hnext).fails (ih hrest)

/-- On some characters, the loop at `a` puts the given words on the stack, the last one on top, until WORD
finds no more. Nothing else changes. -/
def ReadsAll (M : Memory) (a : Word) (cs : List Char) (ws : List String) : Prop :=
  ∀ D R S output, Fails (Shows (running M D a R S) (some { rest := cs }) output) .endOfInput "WORD"
    (Shows (running M D a R (ws.reverse.map .text ++ S)) (some { rest := [] }) output)

/-- WORD takes the next word of the grammar and the blank behind it. It stops with an end of input if and
only if there is no word left, and with a failure wherever the device fails before the word has ended. Run
again and again, it gives all words of the grammar, and so those that were written down. -/
theorem word_accepts_its_grammar :
    (∀ m w m₁, Runs m w (.builtin .word) m₁ →
      (m₁.console.input = none → FindsNoWord m m₁ .endOfInput none) ∧
      ∀ s, m₁.console.input = some s →
        (skip s.rest ≠ [] → s.ending = .endOfInput ∨ behind s.rest ≠ [] →
          TakesWord m m₁ (String.ofList (word s.rest)) { s with rest := (behind s.rest).drop 1 }) ∧
        (s.ending = .endOfInput → (FindsNoWord m m₁ .endOfInput none ↔ Grammar.words s.rest = [])) ∧
        ∀ message, s.ending = .failure message → behind s.rest = [] →
          FindsNoWord m m₁ .ioFailure (some message)) ∧
    ∀ M a, Repeats M a →
      (∀ cs, ReadsAll M a cs (Grammar.words cs)) ∧ ∀ ws cs, Writes ws cs → ReadsAll M a cs ws := by
  refine ⟨fun m w m₁ hr => ⟨findsNoWord_of_no_input hr, fun s hi => ⟨fun h hend => ?_, fun he => ?_,
    fun message he hb => ?_⟩⟩, fun M a hl => ?_⟩
  · exact takesWord_of_nextWord hr hi (Source.nextWord_of_skip_ne h hend)
  · rw [words_eq_nil_iff]
    constructor
    · -- with a word left the step goes through
      rintro ⟨trap, m', hstep, -⟩
      by_cases h : skip s.rest = []
      · exact h
      · have htakes := takesWord_of_nextWord hr hi (Source.nextWord_of_skip_ne h (.inl he))
        cases hstep.symm.trans htakes
    · intro h
      exact (findsNoWord_of_source hr hi (Source.nextWord_of_skip_nil h)).1 he
  · exact (findsNoWord_of_source hr hi (Source.nextWord_of_failure hb he)).2 message he
  · have hall (cs : List Char) : ReadsAll M a cs (Grammar.words cs) := fun D R S output =>
      fails_repeats hl (Source.words_eq_grammar cs)
    refine ⟨hall, fun ws cs hwrites => ?_⟩
    rw [← hwrites.words]
    exact hall cs

end Words

end Machine

namespace WordLoop

open Machine Grammar

def memory : Memory :=
  Memory.load ∅ 10 [.ref 13, .ref 14, .int (-2), .builtin .word, .builtin .branch]

def machine (s : Source) : Machine where
  state := { ip := 10, nip := 11, memory }
  console := { input := some s }

def text : List Char := "\\ note\n a\\b\tc".toList

theorem repeats_memory : Repeats memory 10 := by
  refine ⟨13, 14, fun i hi => ?_, rfl, rfl⟩
  revert i
  decide

theorem behind_unfinished : behind ['a', 'b'] = [] := by
  rw [behind, skip_word (by decide) (by decide)]
  rfl

theorem writes_text : Writes ["a\\b", "c"] text := by
  have hnote : '\n' ∉ " note".toList := by decide
  have hfiller : Filler "\\ note\n ".toList := .comment hnote (.blank rfl .nil)
  have hfirst : IsWord "a\\b" := ⟨by decide, List.all_eq_true.mp (by decide), by decide⟩
  have hlast : IsWord "c" := ⟨by decide, List.all_eq_true.mp (by decide), by decide⟩
  exact .more hfiller hfirst rfl (.last .nil hlast)

end WordLoop

namespace Machine

open WordLoop

/-- The two words are read and the comment is not. -/
theorem word_reads_past_comment :
    (∃ n m', run n (machine { rest := text }) = (.finished, m') ∧
      m'.state.stack = [.text "c", .text "a\\b"]) ∧
    ∃ m₁, FindsNoWord (machine { rest := ['a', 'b'], ending := .failure "lost" }) m₁ .ioFailure
      (some "lost") := by
  obtain ⟨hone, hloop⟩ := word_accepts_its_grammar
  constructor
  · have hshows : Shows (State.running memory ∅ 10 [] []) (some { rest := text }) none
        (machine { rest := text }) := ⟨rfl, rfl, nofun⟩
    obtain ⟨m₁, t, m', hreach, hstep, hkind, -, hm'⟩ :=
      (hloop _ _ repeats_memory).2 _ _ writes_text ∅ [] [] none _ hshows
    obtain ⟨n, hrun⟩ := hreach.run
    refine ⟨n + 1, m', ?_, ?_⟩
    · rw [hrun 1, run, hstep]
      simp [hkind]
    · rw [hm'.state]
      rfl
  · have hcell : memory[(10 : Word)]? = some (.ref 13) := rfl
    have hruns : Runs (machine { rest := ['a', 'b'], ending := .failure "lost" }) 13 (.builtin .word) _ :=
      .first hcell (resolve_ref rfl)
    obtain ⟨-, hread⟩ := hone _ _ _ hruns
    exact ⟨_, (hread _ rfl).2.2 "lost" rfl behind_unfinished⟩

end Machine

end ForthMachine
