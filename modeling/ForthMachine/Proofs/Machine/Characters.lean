import ForthMachine.Proofs.Machine.Delivery
import ForthMachine.Proofs.Source.Grammar
import ForthMachine.Proofs.Text.Utf8

namespace ForthMachine

def Cell.value? : Cell → Option Int
  | .int n => some n.toInt
  | .char code => some code.toInt
  | _ => none

/-- The code point that is written for a code: a surrogate is no character, and U+FFFD stands for it. -/
def Text.writtenCode (n : Nat) : Nat := if 0xD800 ≤ n ∧ n ≤ 0xDFFF then 0xFFFD else n

def Terminal.writing (codes : List Nat) : String := String.ofList (codes.map fun n : Nat => Text.charOfCode n)

/-- A cell has a code point when the integer in it lies between 0 and U+10FFFF. -/
theorem Cell.code?_eq (c : Cell) :
    c.code? = c.value?.bind fun v => if 0 ≤ v ∧ v ≤ 0x10FFFF then some v.toNat else none := by
  cases c with
  | int n =>
    have hrange : 0 ≤ n ∧ n ≤ 0x10FFFF ↔ 0 ≤ n.toInt ∧ n.toInt ≤ 0x10FFFF := by
      rw [Int64.le_iff_toInt_le, Int64.le_iff_toInt_le]
      rfl
    simp only [code?, value?, hrange, Option.bind_some]
  | char code =>
    have hrange : 0 ≤ code ∧ code ≤ 0x10FFFF ↔ 0 ≤ code.toInt ∧ code.toInt ≤ 0x10FFFF := by
      rw [Int32.le_iff_toInt_le, Int32.le_iff_toInt_le]
      rfl
    simp only [code?, value?, hrange, Option.bind_some]
  | _ => rfl

/-- EMIT takes a cell for a code exactly if its integer is one. -/
theorem Cell.code?_eq_some_iff {c : Cell} {n : Nat} :
    c.code? = some n ↔ n ≤ 0x10FFFF ∧ c.value? = some ↑n := by
  rw [c.code?_eq, Option.bind_eq_some_iff]
  constructor
  · rintro ⟨v, hv, hif⟩
    split at hif
    case isTrue hrange =>
      cases hif
      have hcast : ((v.toNat : Nat) : Int) = v := Int.toNat_of_nonneg hrange.1
      exact ⟨by omega, by rw [hv, hcast]⟩
    case isFalse => cases hif
  · rintro ⟨hn, hv⟩
    exact ⟨n, hv, by rw [if_pos (by omega), Int.toNat_natCast]⟩

/-- The code point of the character that is written for a code. -/
theorem Text.toNat_charOfCode {n : Nat} (hn : n ≤ 0x10FFFF) : (charOfCode n).toNat = writtenCode n := by
  have hvalid : (n : Int).toNat.isValidChar ↔ ¬(0xD800 ≤ n ∧ n ≤ 0xDFFF) := by
    rw [Int.toNat_natCast]
    unfold Nat.isValidChar
    omega
  unfold charOfCode writtenCode
  by_cases hs : 0xD800 ≤ n ∧ n ≤ 0xDFFF
  · rw [if_pos hs, if_neg fun h => hvalid.mp h.2 hs]
    rfl
  · have hchar := hvalid.mpr hs
    rw [if_neg hs, if_pos ⟨Int.natCast_nonneg n, hchar⟩, Char.ofNat, dif_pos hchar]
    rfl

/-- The characters of a text, put together again. -/
theorem Text.join_singleton (s : String) : String.join (s.toList.map String.singleton) = s := by
  apply String.toList_inj.mp
  rw [String.toList_join, List.flatMap_map]
  simp only [String.toList_singleton]
  exact List.flatMap_singleton' _

namespace Machine

open State

variable {m m₁ : Machine} {w : Word} {S : Stack Cell} {c : Cell} {s : Source} {x : Char} {n : Nat}

section Emit

/-- EMIT writes one character. -/
theorem writes_emit (hn : c.code? = some n) :
    Operation.emit.Writes c (String.singleton (Text.charOfCode n)) := by
  intro S
  simp [Operation.change, Operation.text?, hn]

/-- Whichever way a step comes to EMIT, a cell that is no code point fails it, and nothing is written. -/
theorem step_of_emit_noCode (hr : Runs m w (.builtin .emit) m₁) (hs : m₁.state.stack = c :: S)
    (hc : c.code? = none) :
    ∃ t m', step m = .error t m' ∧ t.kind = .typeMismatch ∧ t.word = "EMIT" ∧
      m'.console = m₁.console.note "\n" := by
  have heffect : Operation.emit.effect (c :: S) m₁.console.output =
      .trapped .typeMismatch Operation.emit.builtin.name S m₁.console.output := by
    simp [Operation.effect, Operation.change, hc]
  have hrealized := Operation.realized_emit w m₁
  rw [hs, heffect] at hrealized
  obtain ⟨-, t, hperform, hword, hkind⟩ := hrealized
  have hraises : (Primitive.builtin .emit).perform w m₁ =
      .error (.trap t) (Operation.put m₁ S m₁.console.output) := by
    have hemit : Builtin.emit.perform w m₁ = .error (.trap t) (Operation.put m₁ S m₁.console.output) :=
      hperform
    simp only [Primitive.perform, Builtin.contract, Action.bind_apply, hemit]
  exact ⟨_, _, step_of_runs_raises hr hraises hword, hkind, rfl, rfl⟩

/-- EMIT one after another writes a text for cells on the stack, the top first, if the output takes its
characters. -/
def Emits (cells : List Cell) (text : String) : Prop :=
  ∀ M D a code R S input o, M.Holds a (List.replicate cells.length (.ref code)) →
    M[code]? = some (.builtin .emit) → Sink.TakesAll o (text.toList.map String.singleton) →
    ∃ o', o'.delivered = o.delivered ++ text ∧
      Leads (Shows (running M D a R (cells ++ S)) input (some o))
        (Shows (running M D (a.plus cells.length) R S) input (some o'))

/-- EMIT one after another, on cells that have codes, writes the characters of the codes. -/
theorem emits_writing {cells : List Cell} {codes : List Nat}
    (h : List.Forall₂ (fun c n => c.code? = some n) cells codes) : Emits cells (Terminal.writing codes) := by
  intro M D a code R S input o hcells hf ho
  have hpieces : (Terminal.writing codes).toList.map String.singleton =
      codes.map fun n : Nat => String.singleton (Text.charOfCode n) := by
    rw [Terminal.writing, String.toList_ofList, List.map_map]
    rfl
  have hwrites : List.Forall₂ Operation.emit.Writes cells
      ((Terminal.writing codes).toList.map String.singleton) := by
    rw [hpieces, List.forall₂_map_right_iff]
    exact h.imp fun _ _ => writes_emit
  refine ⟨_, ?_, Operation.leads_of_forall_writes hwrites hcells hf ho⟩
  rw [ho.delivered_offerAll, Text.join_singleton]

end Emit

section Key

theorem nextChar_of_cons {cs : List Char} (h : s.rest = x :: cs) :
    s.nextChar = (.ok x, { s with rest := cs }) := by
  rw [Source.nextChar, h]

theorem nextChar_of_nil (h : s.rest = []) : s.nextChar = (.error s.ending, s) := by
  rw [Source.nextChar, h]

/-- KEY one after another puts the given code points on the stack, the last one on top, and then comes to
the end of the input. -/
def Keys (s : Source) (codes : List Nat) : Prop :=
  ∀ M D a code R S output, M.Holds a (List.replicate (codes.length + 1) (.ref code)) →
    M[code]? = some (.builtin .key) →
    Fails (Shows (running M D a R S) (some s) output) .endOfInput "KEY"
      (Shows (running M D (a.plus codes.length) R
        (codes.reverse.map (fun n => .char (Int32.ofNat n)) ++ S)) (some { rest := [] }) output)

/-- KEY one after another puts the codes of the characters on the stack, and then comes to the end of the
input. -/
theorem keys_characters (cs : List Char) : Keys { rest := cs } (cs.map Char.toNat) := by
  intro M D a code R S output hcells hf
  induction cs generalizing a S with
  | nil =>
    have ha : a.plus 0 = a := by simp
    simp only [List.map_nil, List.reverse_nil, List.nil_append, List.length_nil, ha]
    exact consumes_key.fails (Memory.holds_cons.mp hcells).1 hf (nextChar_of_nil rfl)
  | cons x cs ih =>
    rw [List.map_cons, List.length_cons, List.replicate_succ, Memory.holds_cons] at hcells
    have hrest := ih (a := a.plus 1) (S := .char (Int32.ofNat x.toNat) :: S) hcells.2
    rw [Word.plus_plus, Nat.add_comm] at hrest
    rw [List.map_cons, List.reverse_cons, List.map_append, List.append_assoc]
    exact (consumes_key.leads hcells.1 hf (nextChar_of_cons rfl)).fails hrest

end Key

/-- Written characters are read back. What EMIT writes for codes up to U+10FFFF one after another, read by KEY
in the default encoding, gives the same codes, with U+FFFD for each surrogate, and then the end of the input.
Other cells are refused, and nothing is written. -/
theorem emitted_characters_are_read_back :
    Encoding.ofName? [] = some .utf8 ∧
    (∀ (cells : List Cell) (codes : List Nat),
      List.Forall₂ (fun c n => n ≤ 0x10FFFF ∧ c.value? = some ↑n) cells codes →
        ∃ text, Emits cells text ∧
          Keys (Encoding.utf8.source (Octets.ofString text) .endOfInput) (codes.map Text.writtenCode)) ∧
    ∀ m w m₁ c S, Runs m w (.builtin .emit) m₁ → m₁.state.stack = c :: S →
      (∀ n : Nat, n ≤ 0x10FFFF → c.value? ≠ some ↑n) →
        ∃ t m', step m = .error t m' ∧ t.kind = .typeMismatch ∧ t.word = "EMIT" ∧
          m'.console = m₁.console.note "\n" := by
  refine ⟨rfl, fun cells codes hvalues => ?_, fun m w m₁ c S hr hs hnone => ?_⟩
  · have hrange : ∀ n ∈ codes, n ≤ 0x10FFFF := ((List.forall₂_and_left _ _).mp hvalues.flip).1
    refine ⟨Terminal.writing codes, emits_writing (hvalues.imp fun _ _ => Cell.code?_eq_some_iff.mpr), ?_⟩
    have hread : (Terminal.writing codes).toList.map Char.toNat = codes.map Text.writtenCode :=
      calc (Terminal.writing codes).toList.map Char.toNat
        _ = codes.map fun n : Nat => (Text.charOfCode n).toNat := by
          rw [Terminal.writing, String.toList_ofList, List.map_map]
          rfl
        _ = codes.map Text.writtenCode :=
          List.map_congr_left fun n hn => Text.toNat_charOfCode (hrange n hn)
    rw [Encoding.source_ofString, ← hread]
    exact keys_characters _
  · apply step_of_emit_noCode hr hs
    rw [Option.eq_none_iff_forall_ne_some]
    intro n hn
    obtain ⟨hle, hvalue⟩ := Cell.code?_eq_some_iff.mp hn
    exact hnone n hle hvalue

end Machine

namespace BoundaryCodes

open Machine

/-- A byte order mark, and the codes at which their encoding gets longer or changes. -/
def codes : List Nat :=
  [0xFEFF, 0, 0x7F, 0x80, 0x7FF, 0x800, 0xD7FF, 0xD800, 0xDFFF, 0xE000, 0xFFFF, 0x10000, 0x10FFFF]

def memory : Memory := Memory.load ∅ 10 (.builtin .emit :: List.replicate 13 (.ref 10))

def machine (S : Stack Cell) : Machine where
  state := { ip := 11, nip := 12, memory, stack := S }

theorem holds_memory : memory.Holds 11 (List.replicate 13 (.ref 10)) := by
  intro i hi
  revert i
  decide

end BoundaryCodes

namespace Machine

open BoundaryCodes

/-- The two surrogates have become U+FFFD, and the byte order mark is still there. After the last code point
there is none. -/
theorem boundary_codes_are_read_back :
    (∃ m', Reaches (machine (codes.map fun n => .int (Int64.ofNat n))) m' ∧
      Keys (Encoding.utf8.source (Octets.ofString m'.console.output.delivered) .endOfInput)
        [0xFEFF, 0, 0x7F, 0x80, 0x7FF, 0x800, 0xD7FF, 0xFFFD, 0xFFFD, 0xE000, 0xFFFF, 0x10000, 0x10FFFF]) ∧
    ∃ t m', step (machine [.int 0x110000]) = .error t m' ∧ t.kind = .typeMismatch ∧
      m'.console.output.delivered = "" := by
  obtain ⟨-, hwritten, hrefused⟩ := emitted_characters_are_read_back
  constructor
  · obtain ⟨text, hemits, hkeys⟩ := hwritten (codes.map fun n => .int (Int64.ofNat n)) codes (by
      rw [List.forall₂_map_left_iff]
      exact List.forall₂_same.mpr (by decide))
    have hopen : Sink.Open {} := fun _ _ => rfl
    obtain ⟨o, hdelivered, hleads⟩ := hemits _ _ _ _ [] [] none {} holds_memory rfl (hopen.takesAll _)
    rw [List.append_nil] at hleads
    obtain ⟨m', hreaches, hshows⟩ := hleads (machine (codes.map fun n => .int (Int64.ofNat n)))
      ⟨rfl, rfl, fun o ho => ⟨.inl rfl, Option.some.inj ho⟩⟩
    refine ⟨m', hreaches, ?_⟩
    rw [(hshows.output o rfl).2, hdelivered, String.empty_append]
    exact hkeys
  · have hcell : (machine [.int 0x110000]).state.memory[(11 : Word)]? = some (.ref 10) := rfl
    have hruns : Runs (machine [.int 0x110000]) 10 (.builtin .emit) _ := .first hcell (resolve_ref rfl)
    obtain ⟨t, m', hstep, hkind, -, hconsole⟩ := hrefused _ _ _ _ [] hruns rfl (by
      intro n hn heq
      have hvalue : (0x110000 : Int) = n := Option.some.inj heq
      omega)
    refine ⟨t, m', hstep, hkind, ?_⟩
    rw [hconsole]
    rfl

end Machine

end ForthMachine
