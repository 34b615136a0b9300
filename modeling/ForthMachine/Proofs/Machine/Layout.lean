import ForthMachine.Proofs.Machine.Accord

namespace ForthMachine

namespace Source

def tokens (s : Source) : List String :=
  match h : s.nextWord with
  | (.ok word, s') =>
    have : s'.rest.length < s.rest.length := length_of_nextWord h
    word :: tokens s'
  | (.error _, _) => []
termination_by s.rest.length

/-- The first word, and then those that are left. -/
theorem tokens_of_ok {s s' : Source} {word : String} (h : s.nextWord = (.ok word, s')) :
    s.tokens = word :: s'.tokens := by
  rw [tokens]
  split
  case h_1 h' =>
    cases h.symm.trans h'
    rfl
  case h_2 h' => cases h.symm.trans h'

theorem tokens_of_error {s s' : Source} {ending : Ending} (h : s.nextWord = (.error ending, s')) :
    s.tokens = [] := by
  rw [tokens]
  split
  case h_1 h' => cases h.symm.trans h'
  case h_2 => rfl

/-- Reading word by word gives the words of one pass over all characters. -/
theorem tokens_eq_words (cs : List Char) : tokens { rest := cs } = words cs := by
  generalize hws : words cs = ws
  induction ws generalizing cs with
  | nil => exact tokens_of_error (nextWord_of_words_nil hws)
  | cons w ws ih =>
    obtain ⟨rest, hnext, hrest⟩ := nextWord_of_words_cons hws
    rw [tokens_of_ok hnext, ih rest hrest]

def SameWords (i j : Option Source) : Prop :=
  ∃ x y, i = some { rest := x } ∧ j = some { rest := y } ∧ words x = words y

/-- The same word is read, or there is none, and the words after it are the same again. -/
theorem accord_nextWord (E : Failure → Prop) {i j : Option Source} (h : SameWords i j) :
    Accord E SameWords (Terminal.take nextWord i) (Terminal.take nextWord j) := by
  obtain ⟨x, y, rfl, rfl, hwords⟩ := h
  cases hx : words x with
  | nil =>
    have hy : words y = [] := hwords.symm.trans hx
    simp only [Terminal.take, nextWord_of_words_nil hx, nextWord_of_words_nil hy]
    exact .error _ ⟨[], [], rfl, rfl, rfl⟩
  | cons w ws =>
    obtain ⟨x', hnextx, hx'⟩ := nextWord_of_words_cons hx
    obtain ⟨y', hnexty, hy'⟩ := nextWord_of_words_cons (hwords.symm.trans hx)
    simp only [Terminal.take, hnextx, hnexty]
    exact .ok w ⟨x', y', rfl, rfl, hx'.trans hy'.symm⟩

end Source

namespace Machine

def feed (m : Machine) (cs : List Char) : Machine := { m with console.input := some { rest := cs } }

/-- Two inputs with the same words lead to the same states, the same output and the same traps, step by
step, as long as no step runs KEY. -/
theorem layout_does_not_matter {m : Machine} {x y : List Char} {n : Nat}
    (htokens : Source.tokens { rest := x } = Source.tokens { rest := y })
    (hkey : ∀ k, k < n → ∀ w m₁, ¬Runs (after k (m.feed x)) w (.builtin .key) m₁) :
    (∀ k, k ≤ n → (after k (m.feed x)).state = (after k (m.feed y)).state ∧
      (after k (m.feed x)).console.output = (after k (m.feed y)).console.output) ∧
    ∀ k, k < n → (after k (m.feed x)).trap? = (after k (m.feed y)).trap? := by
  have hwords : Source.words x = Source.words y := by
    rw [← Source.tokens_eq_words, ← Source.tokens_eq_words]
    exact htokens
  -- the invariant of the two runs: the same state, and the same words still to be read
  have hstart : Paired (Console.Fed Source.SameWords) (m.feed x) (m.feed y) :=
    ⟨rfl, ⟨x, y, rfl, rfl, hwords⟩, rfl, rfl, rfl⟩
  have hpace (k : Nat) (hk : k < n) :
      KeepsPace (fun _ => False) (Console.Fed Source.SameWords) (after k (m.feed x)) := by
    apply keepsPace_fed
    · exact fun i j h => Source.accord_nextWord _ h
    · intro w m₁ m₁' hr
      exact absurd hr (hkey k hk w m₁)
  have hrun (k : Nat) (hk : k ≤ n) := hstart.after (n := k) noted_fed
    (fun j hj => hpace j (Nat.lt_of_lt_of_le hj hk)) (fun _ _ _ _ => not_false)
  refine ⟨fun k hk => ?_, (hrun n (Nat.le_refl n)).2⟩
  obtain ⟨hpaired, -⟩ := hrun k hk
  exact ⟨hpaired.state, hpaired.console.output⟩

end Machine

namespace ReadAndPrint

open Machine

def machine : Machine where
  state := { ip := 10, nip := 11, memory := Memory.load ∅ 10 [.builtin .word, .builtin .dot] }

def plain : List Char := "A B".toList

def spread : List Char := "\\ two words\n A\tB".toList

theorem not_runs_key {k : Nat} (hk : k < 2) (w : Word) (m₁ : Machine) :
    ¬Runs (after k (machine.feed spread)) w (.builtin .key) m₁ := by
  intro hr
  obtain rfl | rfl : k = 0 ∨ k = 1 := by omega
  · obtain ⟨hp, -⟩ := runs_single (b := .word) (c := .builtin .word) rfl rfl (by decide) hr
    cases hp
  · have hcell : (after 1 (machine.feed spread)).state.memory[
        (after 1 (machine.feed spread)).state.ip]? = some (.builtin .dot) := by
      decide +kernel
    obtain ⟨hp, -⟩ := runs_single hcell rfl (by decide) hr
    cases hp

end ReadAndPrint

namespace Machine

open ReadAndPrint

/-- A word is read and printed, with and without a comment in front of it. -/
theorem comment_does_not_matter :
    (after 2 (machine.feed spread)).state = (after 2 (machine.feed plain)).state ∧
      (after 2 (machine.feed spread)).console.output.delivered = "\"A\" " := by
  have htokens : Source.tokens { rest := spread } = Source.tokens { rest := plain } := by
    rw [Source.tokens_eq_words, Source.tokens_eq_words]
    decide
  obtain ⟨hrun, -⟩ := layout_does_not_matter htokens fun k hk => not_runs_key hk
  obtain ⟨hstate, houtput⟩ := hrun 2 (Nat.le_refl 2)
  refine ⟨hstate, ?_⟩
  rw [houtput]
  decide +kernel

end Machine

end ForthMachine
