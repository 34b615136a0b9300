import ForthMachine.Proofs.Image.Essential
import ForthMachine.Proofs.Interpreter.Interpretation
import ForthMachine.Proofs.Machine.Delivery
import ForthMachine.Proofs.Source.Grammar
import ForthMachine.Proofs.Text.Decimal
import ForthMachine.Proofs.Text.Utf8

namespace ForthMachine

open Machine State Numeral

namespace Terminal

def printout : List Word → String
  | [] => ""
  | n :: ns => render n ++ " " ++ printout ns

end Terminal

open Terminal

/-- A printed integer is one word. -/
theorem Numeral.isWord_render (n : Word) : Grammar.IsWord (render n) := by
  have hchar {c : Char} (hc : c ∈ digits n.toInt) : Grammar.inWord c = true ∧ c ≠ '\\' := by
    have hdigit : ∀ d < 10, Grammar.inWord d.digitChar = true ∧ d.digitChar ≠ '\\' := by decide
    rcases mem_digits hc with rfl | ⟨d, hd, rfl⟩
    · decide
    · exact hdigit d hd
  constructor
  · rw [toList_render]
    exact digits_ne_nil _
  · intro c hc
    rw [toList_render] at hc
    exact (hchar hc).1
  · intro hhead
    rw [toList_render] at hhead
    exact (hchar (List.mem_of_mem_head? hhead)).2 rfl

/-- The words of a printout are the spellings of its integers. -/
theorem Source.words_printout (ns : List Word) : Source.words (printout ns).toList = ns.map render := by
  have hwrites : Grammar.Writes (ns.map render) (printout ns).toList := by
    induction ns with
    | nil => exact .filler .nil
    | cons n ns ih =>
      have hblank : Text.isBlank ' ' = true := by decide
      have hmore := Grammar.Writes.more .nil (isWord_render n) hblank ih
      simpa [printout] using hmore
  rw [words_eq_grammar, hwrites.words]

namespace Machine

variable {M : Memory} {D : Dictionary} {a code quit n : Word} {R : Stack Word} {S : Stack Cell}
  {input : Option Source} {output : Option Sink} {o : Sink} {ns : List Word}

/-- The dot takes an integer from the stack and writes its spelling and a blank. -/
theorem writes_dot (n : Word) : Operation.dot.Writes (.int n) (render n ++ " ") := fun _ => ⟨rfl, rfl⟩

/-- Dots one after another write the text for integers on the stack, the top first. -/
def Prints (ns : List Word) (text : String) : Prop :=
  ∀ M D a code R S input o, M.Holds a (List.replicate ns.length (.ref code)) →
    M[code]? = some (.builtin .dot) → Sink.Open o →
    ∃ o', o'.delivered = o.delivered ++ text ∧
      Leads (Shows (running M D a R (ns.map .int ++ S)) input (some o))
        (Shows (running M D (a.plus ns.length) R S) input (some o'))

theorem join_eq_printout (ns : List Word) : String.join (ns.map (render · ++ " ")) = printout ns := by
  induction ns with
  | nil => rfl
  | cons n ns ih => rw [List.map_cons, String.join_cons, ih, printout]

theorem prints_printout (ns : List Word) : Prints ns (printout ns) := by
  intro M D a code R S input o hcells hf ho
  have hwrites : List.Forall₂ Operation.dot.Writes (ns.map .int) (ns.map (render · ++ " ")) := by
    rw [List.forall₂_map_left_iff, List.forall₂_map_right_iff]
    exact List.forall₂_same.mpr fun n _ => writes_dot n
  have htakes := ho.takesAll (ns.map (render · ++ " "))
  have hlength : (ns.map Cell.int).length = ns.length := List.length_map _
  rw [← hlength] at hcells ⊢
  refine ⟨_, ?_, Operation.leads_of_forall_writes hwrites hcells hf htakes⟩
  rw [htakes.delivered_offerAll, join_eq_printout]

/-- The spellings of integers are read one after another, and each integer is put on the stack. -/
theorem leads_spellings (hl : Loop quit M) (hi : ∀ S, (running M D quit R S).isCompiling = false)
    (hf : ∀ n ∈ ns, D.find? (render n) = none) :
    Leads (Awaits (running M D quit R S) (ns.map render) output)
      (Awaits (running M D quit R (ns.reverse.map .int ++ S)) [] output) := by
  induction ns generalizing S with
  | nil => exact Leads.refl _
  | cons n ns ih =>
    rw [List.forall_mem_cons] at hf
    have hn : decimal? (render n).toList = some n := by rw [toList_render, decimal?_digits]
    have hrest := ih (S := .int n :: S) hf.2
    rw [List.reverse_cons, List.map_append, List.append_assoc]
    exact (leads_number hl hf.1 hn (hi S)).trans hrest

end Machine

namespace Image

open Blueprint Memory

/-- Printed integers are read back. The text that dots write for integers one after another, given to the
outer interpreter as bytes, puts the same integers on the stack in the same order, as long as none of their
spellings is a visible name. Nothing else changes. -/
theorem printed_integers_read_back {img : Image} {m : Machine} {ns : List Word}
    (hl : Loop img.quit m.state.memory) (hi : m.state.isCompiling = false)
    (hf : ∀ n ∈ ns, m.state.dictionary.find? (render n) = none) :
    Prints ns (printout ns) ∧
      ∃ k m', (∀ fuel, k ≤ fuel → img.evaluate fuel
          (Encoding.utf8.source (Octets.ofString (printout ns)) .endOfInput) m = (.finished, m')) ∧
        m'.state = { m.state with
          ip := img.quit, nip := img.quit + 1, stack := ns.reverse.map .int ++ m.state.stack } ∧
        m'.console.input = m.console.input := by
  refine ⟨prints_printout ns, ?_⟩
  have hread : Leads (Awaits (running m.state.memory m.state.dictionary img.quit m.state.returns
      m.state.stack) (ns.map render) none) _ := leads_spellings hl (fun _ => hi) hf
  rw [← Source.words_printout] at hread
  obtain ⟨k, m', heval, hstate, hinput, -⟩ := evaluate_of_leads img m hl (by simp) hread
  refine ⟨k, m', fun fuel hfuel => ?_, hstate, hinput⟩
  rw [Encoding.source_ofString]
  exact heval fuel hfuel

/-- The lowest and the highest integer, read back by a new image. -/
theorem extreme_integers_read_back :
    ∃ fuel installed m', install fuel 16 {} = (.ok ⟨16, 228⟩, installed) ∧
      printout [-9223372036854775808, 9223372036854775807, 0] =
        "-9223372036854775808 9223372036854775807 0 " ∧
      (⟨16, 228⟩ : Image).evaluate fuel (Encoding.utf8.source (Octets.ofString
        (printout [-9223372036854775808, 9223372036854775807, 0])) .endOfInput) installed =
        (.finished, m') ∧
      m'.state = { installed.state with
        ip := 228, nip := 229
        stack := [.int 0, .int 9223372036854775807, .int (-9223372036854775808)] } := by
  have hbase : isValidBase defaultBase = true := by decide
  have hf : Free defaultBase (size parts) := (free_default (Nat.zero_le _)).mono (by omega)
  obtain ⟨n, installed, hinstall, hstate, -⟩ := install_apply hbase {}
  rw [← image, image_default] at hinstall
  have hloop : Loop (⟨16, 228⟩ : Image).quit installed.state.memory := by
    rw [hstate, ← image_default]
    have hequipped : (site defaultBase parts "").Equipped (builtinField defaultBase) (size []) :=
      equipped_site (List.append_nil parts).symm hf grounded_parts
    exact hequipped.loop_memory
  have hmode : installed.state.isCompiling = false := by
    rw [hstate]
    exact isCompiling_of_zero (sound_parts hf).state
  have hnames : ∀ n ∈ ([-9223372036854775808, 9223372036854775807, 0] : List Word),
      installed.state.dictionary.find? (render n) = none := by
    intro n hn
    rw [hstate]
    simp only [List.mem_cons, List.not_mem_nil, or_false] at hn
    rcases hn with rfl | rfl | rfl <;> exact find?_placed_none (by decide +kernel)
  have hstack : installed.state.stack = [] := by
    rw [hstate]
    rfl
  obtain ⟨-, k, m', heval, hend, -⟩ := printed_integers_read_back hloop hmode hnames
  refine ⟨max n k, installed, m', hinstall _ (Nat.le_max_left n k), by decide +kernel,
    heval _ (Nat.le_max_right n k), ?_⟩
  rw [hend, hstack]
  rfl

end Image

end ForthMachine
