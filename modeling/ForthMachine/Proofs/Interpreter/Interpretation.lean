import ForthMachine.Proofs.Interpreter.Definition
import ForthMachine.Proofs.Structured.Simulation

namespace ForthMachine

namespace Machine

open State

/-- The outer interpreter has an effect: it comes to wait for the words `ws` with the new stack and
output, or to the trap. -/
def Interprets (M : Memory) (D : Dictionary) (quit : Word) (R : Stack Word) (ws : List String)
    (P : Machine → Prop) : Effect → Prop
  | .done S o => Leads P (Awaits (running M D quit R S) ws (some o))
  | .trapped kind name S o =>
    Fails P kind name fun m => m.state.stack = S ∧ m.console.output = o

variable {M : Memory} {D : Dictionary} {quit a : Word} {R : Stack Word} {S : Stack Cell} {o : Sink}
  {w : String} {ws : List String} {P Q : Machine → Prop} {r : Effect} {e : Entry}
  {links : Branches} {words : Word → Option Meaning}

/-- What leads to machines that have an effect has it as well. -/
theorem Leads.interprets (h : Leads P Q) (hr : Interprets M D quit R ws Q r) :
    Interprets M D quit R ws P r := by
  cases r with
  | done S o => exact h.trans hr
  | trapped kind name S o => exact h.fails hr

/-- The code of a body that was entered from the outer interpreter: its EXIT leads back. -/
theorem interprets_threaded {body : Body Word Word} (hq : Loop quit M) (hl : Laid links words M)
    (hc : M.Holds a (body.code links ++ [.builtin .exit])) (he : Body.Eval words body S o r) :
    Interprets M D quit R ws (Awaits (running M D a (quit.plus 1 :: R) S) ws (some o)) r := by
  obtain ⟨hbody, hexit⟩ := Memory.holds_append.mp hc
  have hrun (input : Option Source) : Realizes M D (quit.plus 1 :: R) input
      (Shows (running M D a (quit.plus 1 :: R) S) input (some o)) _ r :=
    realizes_of_eval hl he a (quit.plus 1 :: R) hbody
  -- only an effect that ends reaches the EXIT
  cases r with
  | done S' o' =>
    exact (leads_awaits hrun).trans (leads_returned hq (Memory.holds_singleton.mp hexit))
  | trapped kind name S' o' =>
    refine fails_awaits fun input => (hrun input).mono ?_
    rintro m ⟨b, R', hm⟩
    refine ⟨?_, (hm.output o' rfl).2⟩
    rw [hm.state]
    rfl

/-- The outer interpreter runs an operation as it reads its name. -/
theorem interprets_operation {op : Operation} (hq : Loop quit M)
    (hm : Compiler.meaning w (running M D quit R S) = .ok (some a) (running M D quit R S))
    (hf : M[a]? = some (.builtin op.builtin)) :
    Interprets M D quit R ws (Awaits (running M D quit R S) (w :: ws) (some o)) (op.effect S o) := by
  cases he : op.effect S o with
  | done S' o' =>
    have hperform : Performs a (.builtin op.builtin) (Awaits (running M D quit R S) ws (some o))
        (Awaits (running M D (quit.plus 1) R S') ws (some o')) :=
      performs_awaits fun _ => Operation.performs_of_done he
    exact (leads_handOver hq hm hf hperform).trans (leads_loop hq)
  | trapped kind name S' o' =>
    have hraises : Raises a (.builtin op.builtin) (Awaits (running M D quit R S) ws (some o)) kind
        (Awaits (running M D quit R S') ws (some o')) := by
      rintro m ⟨cs, hcs, hm⟩
      obtain ⟨t, m', hp, hw, hk, hm'⟩ := Operation.raises_of_trapped he m hm
      exact ⟨t, m', hp, hw, hk, cs, hcs, hm'⟩
    have hfail := fails_handOver hq hm hf hraises
    rw [← Operation.name_of_trapped he] at hfail
    apply hfail.mono
    rintro m ⟨cs, -, hm'⟩
    refine ⟨?_, (hm'.output o' rfl).2⟩
    rw [hm'.state]
    rfl

/-- A visible name is run on the spot and has the effect of a reference to it. -/
theorem interprets_word (hq : Loop quit M) (hl : Laid links words M)
    (hf : D.find? w = some e) (hi : (running M D quit R S).isCompiling = false)
    (he : Body.Eval words (.word e.code) S o r) :
    Interprets M D quit R ws (Awaits (running M D quit R S) (w :: ws) (some o)) r := by
  have hfind : (running M D quit R S).dictionary.find? w = some e := hf
  have hm := meaning_of_find? hfind (.inr hi)
  cases he with
  | @operation _ op _ _ _ hw heff =>
    subst heff
    exact interprets_operation hq hm (hl.operation _ _ hw)
  | @definition _ body _ _ _ hw heval =>
    obtain ⟨hdocol, hbody⟩ := Memory.holds_cons.mp (hl.definition _ _ hw)
    exact (leads_entered hq hm hdocol).interprets (interprets_threaded hq hl hbody heval)

/-- A number that is no visible name is put on the stack. -/
theorem leads_number {k : Word} {output : Option Sink} (hq : Loop quit M) (hf : D.find? w = none)
    (hk : Numeral.decimal? w.toList = some k) (hi : (running M D quit R S).isCompiling = false) :
    Leads (Awaits (running M D quit R S) (w :: ws) output)
      (Awaits (running M D quit R (.int k :: S)) ws output) := by
  have hfind : (running M D quit R S).dictionary.find? w = none := hf
  apply leads_meaning hq hq
  simp only [Compiler.meaning, Action.bind_apply, Action.get_apply, hfind, hk, hi, Bool.false_eq_true,
    ↓reduceIte, push_apply, advance_apply, Action.pure_apply]
  rfl

/-- The words of a body without branches, by induction on the body; the rest of the source varies,
because each part of the body is followed by the next one. -/
theorem interprets_body {body : Body String String} {resolved : Body Word Word} (hq : Loop quit M)
    (hl : Laid links words M) (hflat : body.isFlat = true) (hr : body.resolve? D = some resolved)
    (hi : ∀ S, (running M D quit R S).isCompiling = false) (he : Body.Eval words resolved S o r) :
    Interprets M D quit R ws (Awaits (running M D quit R S) (body.spelling ++ ws) (some o)) r := by
  induction body generalizing resolved S o r ws with
  | empty =>
    cases hr
    cases he
    exact Leads.refl _
  | seq first second ihf ihs =>
    rw [Body.isFlat, Bool.and_eq_true] at hflat
    simp only [Body.resolve?, Option.pure_def, Option.bind_eq_bind, Option.bind_eq_some_iff,
      Option.some.injEq] at hr
    obtain ⟨x, hx, y, hy, rfl⟩ := hr
    rw [Body.spelling, List.append_assoc]
    cases he with
    | @seq _ _ _ _ S' o' _ hfirst hsecond =>
      exact Leads.interprets (ihf hflat.1 hx hfirst) (ihs hflat.2 hy hsecond)
    | seqTrap hfirst => exact ihf hflat.1 hx hfirst
  | literal token =>
    rw [Body.resolve?] at hr
    split at hr
    · cases hr
    · next hf =>
      obtain ⟨k, hk, rfl⟩ := Option.map_eq_some_iff.mp hr
      cases he
      exact leads_number hq hf hk (hi S)
  | word name =>
    rw [Body.resolve?] at hr
    split at hr
    · next e hf =>
      split at hr
      · cases hr
      · cases hr
        exact interprets_word hq hl hf (hi S) he
    · cases hr
  | ifThen yes => cases hflat
  | ifElse yes no => cases hflat
  | beginUntil body => cases hflat
  | beginAgain body => cases hflat

end Machine

namespace Site

open Machine State Memory

variable {s : Site} {fields : Builtin → Word} {n : Nat} {S : Stack Cell} {o : Sink} {r : Effect}
  {words : Word → Option Meaning} {body : Body String String} {resolved : Body Word Word}
  {ts : List String}

/-- A definition of some words and the name of the definition after it: the words are compiled, and the
name runs them. -/
theorem interprets_defined (hr : s.Ready fields n) (ho : s.Opens) (hcolon : s.HasWord n .colon)
    (hsemicolon : s.HasWord n .semicolon) (hflat : body.isFlat = true)
    (hs : body.resolve? s.dictionary = some resolved)
    (hn : 3 + ((resolved.code ⟨fields .zeroBranch, fields .branch⟩).length + 2) ≤ n)
    (hl : ∀ mode cells, 3 + cells.length ≤ n →
      Laid ⟨fields .zeroBranch, fields .branch⟩ words (s.memoryWith mode cells))
    (he : Body.Eval words resolved S o r) :
    ∃ M D, Interprets M D s.quit s.returns ts
      (Awaits (s.outset S) (":" :: s.name :: (body.spelling ++ ";" :: s.name :: ts)) (some o)) r ∧
      Loop s.quit M := by
  -- the code of the definition, under a name, so that it is not taken apart too early
  obtain ⟨cells, hcells⟩ : ∃ cells : List Cell, cells = .builtin .docol ::
    (resolved.code ⟨fields .zeroBranch, fields .branch⟩ ++ [.builtin .exit]) := ⟨_, rfl⟩
  have hlen : 3 + cells.length ≤ n := by
    rw [hcells, List.length_cons, List.length_append, List.length_singleton]
    exact hn
  have hq : Loop s.quit (s.memoryWith 0 cells) := hr.loop_memoryWith hlen
  refine ⟨s.memoryWith 0 cells, s.dictionary.insert (s.entry {}), ?_, hq⟩
  have hcompiles := compiles_body hr (fun h => by rw [hflat] at h; cases h) hs
  have hdefinition : Leads (Awaits (s.outset S)
      (":" :: s.name :: (body.spelling ++ ";" :: s.name :: ts)) (some o))
      (Awaits (s.built {} 0 cells S) (s.name :: ts) (some o)) := by
    rw [hcells]
    exact leads_definition hr ho hcolon hsemicolon hcompiles hn
  have hmode : (s.built {} 0 cells S).isCompiling = false := isCompiling_built (hr.free.mono hlen)
  have hmeaning : Compiler.meaning s.name (s.built {} 0 cells S) =
      .ok (some (s.start.plus 3)) (s.built {} 0 cells S) :=
    meaning_of_find? (find?_visible rfl) (.inr hmode)
  have hcode : (s.memoryWith 0 cells).Holds (s.start.plus 3) cells :=
    enter_holds_code (hr.free.mono hlen)
  rw [hcells] at hcode
  obtain ⟨hdocol, hbody⟩ := holds_cons.mp hcode
  rw [← hcells] at hdocol hbody
  refine hdefinition.interprets ((leads_entered hq hmeaning hdocol).interprets ?_)
  exact interprets_threaded hq (hl 0 cells hlen) hbody he

end Site

end ForthMachine
