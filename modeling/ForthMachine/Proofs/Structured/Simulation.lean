import ForthMachine.Proofs.Structured.Operation

namespace ForthMachine

/-- Memory holds the words that structured bodies refer to: the two branching words, the operations,
and the definitions, each with its code between DOCOL and EXIT. -/
structure Laid (links : Branches) (words : Word → Option Meaning) (m : Memory) : Prop where
  zeroBranch : m[links.zeroBranch]? = some (.builtin .zeroBranch)
  branch : m[links.branch]? = some (.builtin .branch)
  operation : ∀ w op, words w = some (.operation op) → m[w]? = some (.builtin op.builtin)
  definition : ∀ w body, words w = some (.definition body) →
    m.Holds w (.builtin .docol :: (body.code links ++ [.builtin .exit]))

namespace Machine

open State

/-- Machines of one sort have an effect: they get to the address `e` with the new stack and output, or
to the trap. Memory, dictionary, return stack and input are as given; at a trap the return stack may
hold more. -/
def Realizes (M : Memory) (D : Dictionary) (R : Stack Word) (input : Option Source)
    (P : Machine → Prop) (e : Word) : Effect → Prop
  | .done S o => Leads P (Shows (running M D e R S) input (some o))
  | .trapped kind name S o =>
    Fails P kind name fun m => ∃ a R', Shows (running M D a R' S) input (some o) m

variable {M : Memory} {D : Dictionary} {R : Stack Word} {S : Stack Cell} {input : Option Source}
  {o : Sink} {P Q : Machine → Prop} {a e : Word} {r : Effect}

/-- What leads to machines that have an effect has it as well. -/
theorem Leads.realizes (h : Leads P Q) (hr : Realizes M D R input Q e r) :
    Realizes M D R input P e r := by
  cases r with
  | done S o => exact h.trans hr
  | trapped kind name S o => exact h.fails hr

theorem Realizes.cast {e' : Word} (h : Realizes M D R input P e r) (he : e = e') :
    Realizes M D R input P e' r := he ▸ h

/-- A trap does not depend on where the body would have ended. -/
theorem Realizes.trapped {R' : Stack Word} {e' : Word} {kind : Trap.Kind} {name : String}
    (h : Realizes M D R' input P e' (.trapped kind name S o)) :
    Realizes M D R input P e (.trapped kind name S o) := h

theorem realizes_operation {code : Word} {op : Operation} (hc : M[a]? = some (.ref code))
    (hf : M[code]? = some (.builtin op.builtin)) :
    Realizes M D R input (Shows (running M D a R S) input (some o)) (a.plus 1) (op.effect S o) := by
  cases he : op.effect S o with
  | done S' o' =>
    exact leads_of_performs hc (resolve_ref hf) (Operation.performs_of_done he)
  | trapped kind name S' o' =>
    have hfail : Fails (Shows (running M D a R S) input (some o)) kind name
        (Shows (running M D a R S') input (some o')) := by
      rw [Operation.name_of_trapped he]
      exact fails_of_raises hc (resolve_ref hf) rfl (Operation.raises_of_trapped he)
    exact hfail.mono fun m hm => ⟨a, R, hm⟩

section Bodies

variable {links : Branches} {words : Word → Option Meaning}

theorem realizes_zeroBranch_empty (hl : Laid links words M)
    (hc : M[a]? = some (.ref links.zeroBranch)) :
    Realizes M D R input (Shows (running M D a R []) input (some o)) e
      (.trapped .stackUnderflow Builtin.zeroBranch.name [] o) :=
  (fails_zeroBranch hc hl.zeroBranch).mono fun _ hm => ⟨a, R, hm⟩

/-- The code of a body has an effect wherever it lies. The address and the return stack vary, because
the code of a definition runs elsewhere and with one more return address. -/
def Carries (links : Branches) (M : Memory) (D : Dictionary) (input : Option Source)
    (body : Body Word Word) (S : Stack Cell) (o : Sink) (r : Effect) : Prop :=
  ∀ a R, M.Holds a (body.code links) →
    Realizes M D R input (Shows (running M D a R S) input (some o))
      (a.plus (body.code links).length) r

namespace Carries

variable {x y body : Body Word Word} {w : Word} {c : Cell} {n : Word} {S' : Stack Cell} {o' : Sink}
  {kind : Trap.Kind} {name : String}

theorem empty : Carries links M D input .empty S o (.done S o) := by
  intro a R _
  rw [Body.code, List.length_nil, Word.plus_zero]
  exact Leads.refl _

theorem literal : Carries links M D input (.literal n) S o (.done (.int n :: S) o) := by
  intro a R hc
  exact leads_lit hc

theorem operation {op : Operation} (hl : Laid links words M) (hw : words w = some (.operation op)) :
    Carries links M D input (.word w) S o (op.effect S o) := by
  intro a R hc
  exact realizes_operation (Memory.holds_singleton.mp hc) (hl.operation w op hw)

/-- The code of the second body begins where that of the first one ends. -/
theorem seq (hx : Carries links M D input x S o (.done S' o')) (hy : Carries links M D input y S' o' r) :
    Carries links M D input (.seq x y) S o r := by
  intro a R hc
  obtain ⟨hcx, hcy⟩ := Memory.holds_append.mp hc
  apply (Leads.realizes (hx a R hcx) (hy _ R hcy)).cast
  simp [Body.code]

/-- A trap in the first part of the code is that of the whole. -/
theorem of_trapped {rest : List Cell} (hx : Carries links M D input x S o (.trapped kind name S' o'))
    (hcode : body.code links = x.code links ++ rest) :
    Carries links M D input body S o (.trapped kind name S' o') := by
  intro a R hc
  rw [hcode] at hc
  exact (hx a R (Memory.holds_append.mp hc).1).trapped

/-- A reference enters the code of the definition, whose EXIT comes back behind the reference. -/
theorem definition (hl : Laid links words M) (hw : words w = some (.definition body))
    (hx : Carries links M D input body S o r) : Carries links M D input (.word w) S o r := by
  intro a R hc
  obtain ⟨hdocol, hrest⟩ := Memory.holds_cons.mp (hl.definition w body hw)
  obtain ⟨hbody, hexit⟩ := Memory.holds_append.mp hrest
  apply (leads_docol (Memory.holds_singleton.mp hc) hdocol).realizes
  -- the definition runs at its own place and returns to the cell after the reference
  have hrun := hx (w.plus 1) (a.plus 1 :: R) hbody
  cases r with
  | done S' o' => exact hrun.trans (leads_exit (Memory.holds_singleton.mp hexit))
  | trapped kind name S' o' => exact hrun.trapped

theorem ifThen_nil (hl : Laid links words M) :
    Carries links M D input (.ifThen x) [] o
      (.trapped .stackUnderflow Builtin.zeroBranch.name [] o) := by
  intro a R hc
  exact realizes_zeroBranch_empty hl (Memory.holds_cons.mp (Body.holds_ifThen hc).1).1

/-- On a true flag the machine goes on into the part. -/
theorem ifThen_of_not_isFalse (hl : Laid links words M) (hf : c.isFalse = false)
    (hx : Carries links M D input x S o r) : Carries links M D input (.ifThen x) (c :: S) o r := by
  intro a R hc
  obtain ⟨hhead, hcx⟩ := Body.holds_ifThen hc
  have href := (Memory.holds_cons.mp hhead).1
  refine (Leads.realizes (leads_zeroBranch_of_not_isFalse href hl.zeroBranch hf)
    (hx (a.plus 2) R hcx)).cast ?_
  rw [Word.plus_plus, Body.length_code_ifThen, Nat.add_comm]

/-- On a false flag the branch leads past the part. -/
theorem ifThen_of_isFalse (hl : Laid links words M) (hf : c.isFalse = true) :
    Carries links M D input (.ifThen x) (c :: S) o (.done S o) := by
  intro a R hc
  obtain ⟨hhead, -⟩ := Body.holds_ifThen hc
  apply Realizes.cast (r := .done S o) (leads_zeroBranch_of_isFalse hhead hl.zeroBranch hf)
  rw [Word.plus_add_ofNat, Body.length_code_ifThen]
  congr 1
  omega

theorem ifElse_nil (hl : Laid links words M) :
    Carries links M D input (.ifElse x y) [] o
      (.trapped .stackUnderflow Builtin.zeroBranch.name [] o) := by
  intro a R hc
  exact realizes_zeroBranch_empty hl (Memory.holds_cons.mp (Body.holds_ifElse hc).1).1

/-- On a true flag the first part runs, and a branch leads past the second one. -/
theorem ifElse_of_not_isFalse (hl : Laid links words M) (hf : c.isFalse = false)
    (hx : Carries links M D input x S o r) : Carries links M D input (.ifElse x y) (c :: S) o r := by
  intro a R hc
  obtain ⟨hhead, hcx, hover, -⟩ := Body.holds_ifElse hc
  have href := (Memory.holds_cons.mp hhead).1
  apply Leads.realizes (leads_zeroBranch_of_not_isFalse href hl.zeroBranch hf)
  have hrun := hx (a.plus 2) R hcx
  rw [Word.plus_plus] at hrun
  cases r with
  | trapped kind name S' o' => exact hrun.trapped
  | done S' o' =>
    apply Realizes.cast (r := .done S' o') (hrun.trans (leads_branch hover hl.branch))
    rw [Word.plus_plus, Word.plus_add_ofNat, Body.length_code_ifElse]
    congr 1
    omega

/-- On a false flag the branch leads to the second part. -/
theorem ifElse_of_isFalse (hl : Laid links words M) (hf : c.isFalse = true)
    (hy : Carries links M D input y S o r) : Carries links M D input (.ifElse x y) (c :: S) o r := by
  intro a R hc
  obtain ⟨hhead, -, -, hcy⟩ := Body.holds_ifElse hc
  apply Leads.realizes (leads_zeroBranch_of_isFalse hhead hl.zeroBranch hf)
  have haddr : a.plus 1 + Int64.ofNat ((x.code links).length + 3) =
      a.plus (2 + (x.code links).length + 2) := by
    rw [Word.plus_add_ofNat]
    congr 1
    omega
  rw [haddr]
  apply (hy _ R hcy).cast
  rw [Word.plus_plus, Body.length_code_ifElse]
  congr 1
  omega

theorem beginUntil_nil (hl : Laid links words M) (hx : Carries links M D input x S o (.done [] o')) :
    Carries links M D input (.beginUntil x) S o
      (.trapped .stackUnderflow Builtin.zeroBranch.name [] o') := by
  intro a R hc
  obtain ⟨hcx, htail⟩ := Memory.holds_append.mp hc
  exact Leads.realizes (hx a R hcx) (realizes_zeroBranch_empty hl (Memory.holds_cons.mp htail).1)

/-- A true flag at the end of a round ends the loop. -/
theorem beginUntil_of_not_isFalse (hl : Laid links words M) (hf : c.isFalse = false)
    (hx : Carries links M D input x S o (.done (c :: S') o')) :
    Carries links M D input (.beginUntil x) S o (.done S' o') := by
  intro a R hc
  obtain ⟨hcx, htail⟩ := Memory.holds_append.mp hc
  have href := (Memory.holds_cons.mp htail).1
  refine Realizes.cast (r := .done S' o')
    (Leads.trans (hx a R hcx) (leads_zeroBranch_of_not_isFalse href hl.zeroBranch hf)) ?_
  rw [Word.plus_plus, Body.length_code_beginUntil]

/-- A false flag at the end of a round leads back to the start of the loop. -/
theorem beginUntil_of_isFalse (hl : Laid links words M) (hf : c.isFalse = true)
    (hx : Carries links M D input x S o (.done (c :: S') o'))
    (hloop : Carries links M D input (.beginUntil x) S' o' r) :
    Carries links M D input (.beginUntil x) S o r := by
  intro a R hc
  obtain ⟨hcx, htail⟩ := Memory.holds_append.mp hc
  have hjump := Leads.trans (hx a R hcx) (leads_zeroBranch_of_isFalse htail hl.zeroBranch hf)
  rw [Body.loop_offset] at hjump
  exact hjump.realizes (hloop a R hc)

/-- Every round leads back to the start of the loop. -/
theorem beginAgain (hl : Laid links words M) (hx : Carries links M D input x S o (.done S' o'))
    (hloop : Carries links M D input (.beginAgain x) S' o' r) :
    Carries links M D input (.beginAgain x) S o r := by
  intro a R hc
  obtain ⟨hcx, htail⟩ := Memory.holds_append.mp hc
  have hjump := Leads.trans (hx a R hcx) (leads_branch htail hl.branch)
  rw [Body.loop_offset] at hjump
  exact hjump.realizes (hloop a R hc)

end Carries

/-- The simulation, by induction on the evaluation. -/
theorem realizes_of_eval {body : Body Word Word} (hl : Laid links words M)
    (h : Body.Eval words body S o r) : Carries links M D input body S o r := by
  induction h with
  | empty => exact .empty
  | seq _ _ ihx ihy => exact ihx.seq ihy
  | seqTrap _ ih => exact ih.of_trapped rfl
  | literal => exact .literal
  | operation hw he => exact he ▸ .operation hl hw
  | definition hw _ ih => exact .definition hl hw ih
  | ifThenEmpty => exact .ifThen_nil hl
  | ifThenTrue hf _ ih => exact .ifThen_of_not_isFalse hl hf ih
  | ifThenFalse hf => exact .ifThen_of_isFalse hl hf
  | ifElseEmpty => exact .ifElse_nil hl
  | ifElseTrue hf _ ih => exact .ifElse_of_not_isFalse hl hf ih
  | ifElseFalse hf _ ih => exact .ifElse_of_isFalse hl hf ih
  | untilTrap _ ih => exact ih.of_trapped rfl
  | untilEmpty _ ih => exact .beginUntil_nil hl ih
  | untilTrue _ hf ih => exact .beginUntil_of_not_isFalse hl hf ih
  | untilFalse _ hf _ ihx ihloop => exact .beginUntil_of_isFalse hl hf ihx ihloop
  | againTrap _ ih => exact ih.of_trapped rfl
  | again _ _ ihx ihloop => exact .beginAgain hl ihx ihloop

/-- Wherever the code of a body lies, the machine has the effect of the body. If the body ends with a
stack and an output, steps lead from the first cell of the code to the cell after it with that stack
and output, and nothing else of the state has changed; if the body stops at a trap, the machine stops
at a trap of the same kind in the same word, with the same stack and output. -/
theorem threaded_code_has_effect_of_body {body : Body Word Word} {m : Machine}
    (hl : Laid links words m.state.memory) (hc : m.state.memory.Holds m.state.ip (body.code links))
    (hn : m.state.nip = m.state.ip + 1) (ht : m.console.KeepsTraceApart) :
    (∀ s o, Body.Eval words body m.state.stack m.console.output (.done s o) →
      ∃ m', Reaches m m' ∧
        m'.state = { m.state with
          ip := m.state.ip.plus (body.code links).length
          nip := m.state.ip.plus (body.code links).length + 1
          stack := s } ∧
        m'.console.output = o) ∧
    ∀ kind word s o, Body.Eval words body m.state.stack m.console.output (.trapped kind word s o) →
      ∃ m₁ t m', Reaches m m₁ ∧ step m₁ = .error t m' ∧ t.kind = kind ∧ t.word = word ∧
        m'.state.stack = s ∧ m'.console.output = o ∧
        m'.state.memory = m.state.memory ∧ m'.state.dictionary = m.state.dictionary := by
  obtain ⟨⟨ip, nip, M, D, R, S⟩, console⟩ := m
  obtain rfl : nip = ip + 1 := hn
  have hshow : Shows (running M D ip R S) console.input (some console.output)
      ⟨⟨ip, ip + 1, M, D, R, S⟩, console⟩ := by
    refine ⟨rfl, rfl, ?_⟩
    intro o ho
    cases ho
    exact ⟨ht, rfl⟩
  refine ⟨?_, ?_⟩
  · intro s o he
    obtain ⟨m', hr, hq⟩ := realizes_of_eval (D := D) hl he ip R hc _ hshow
    exact ⟨m', hr, hq.state, (hq.output o rfl).2⟩
  · intro kind word s o he
    obtain ⟨m₁, t, m', hr, hs, hk, hw, a, R', hq⟩ := realizes_of_eval (D := D) hl he ip R hc _ hshow
    refine ⟨m₁, t, m', hr, hs, hk, hw, ?_, (hq.output o rfl).2, ?_, ?_⟩
    · rw [hq.state]
      rfl
    · rw [hq.state]
      rfl
    · rw [hq.state]
      rfl

end Bodies

end Machine

namespace Countdown

open Machine State

/-- `DUP . 1 - DUP 0=` -/
def pass : Body Word Word := .ofList [.word 10, .word 11, .literal 1, .word 12, .word 10, .word 13]

def body : Body Word Word := .ifElse (.seq (.literal 2) (.word 20)) .empty

/-- The words that the two bodies refer to; the one at 20 repeats the pass until it leaves zero. -/
def words : Word → Option Meaning
  | 10 => some (.operation .dup)
  | 11 => some (.operation .dot)
  | 12 => some (.operation .minus)
  | 13 => some (.operation .zeroEquals)
  | 20 => some (.definition (.beginUntil pass))
  | _ => none

def links : Branches := ⟨14, 15⟩

def memory : Memory :=
  let operations := Memory.load ∅ 10
    ([.dup, .dot, .minus, .zeroEquals, .zeroBranch, .branch].map Cell.builtin)
  let definitions := operations.load 20
    (.builtin .docol :: ((Body.beginUntil pass).code links ++ [.builtin .exit]))
  definitions.load 40 (body.code links)

def machine : Machine where
  state := running memory ∅ 40 [7] [.int (-1)]

theorem laid : Laid links words memory := by
  refine ⟨by decide, by decide, ?_, ?_⟩
  · intro w op h
    unfold words at h
    split at h <;> cases h <;> decide
  · intro w body h
    unfold words at h
    split at h <;> cases h
    unfold Memory.Holds
    decide +kernel

def output : Sink := ((({} : Sink).write "2 ").2.write "1 ").2

theorem eval : Body.Eval words body [.int (-1)] {} (.done [.int 0] output) := by
  -- the first pass leaves a false flag and the second one a true flag, which ends the loop
  have hfirst : Body.Eval words pass [.int 2] {}
      (.done [.int 0, .int 1] (({} : Sink).write "2 ").2) := by
    refine .seq (.operation rfl rfl) (.seq (.operation rfl rfl) (.seq .literal ?_))
    exact .seq (.operation rfl rfl) (.seq (.operation rfl rfl) (.seq (.operation rfl rfl) .empty))
  have hsecond : Body.Eval words pass [.int 1] (({} : Sink).write "2 ").2
      (.done [.int (-1), .int 0] output) := by
    refine .seq (.operation rfl rfl) (.seq (.operation rfl rfl) (.seq .literal ?_))
    exact .seq (.operation rfl rfl) (.seq (.operation rfl rfl) (.seq (.operation rfl rfl) .empty))
  have hloop := Body.Eval.untilFalse hfirst rfl (.untilTrue hsecond rfl)
  exact .ifElseTrue rfl (.seq .literal (.definition rfl hloop))

theorem countdown_code_has_effect :
    ∃ m', Reaches machine m' ∧ m'.state = running memory ∅ 47 [7] [.int 0] ∧
      m'.console.output.delivered = "2 1 " := by
  have hcode : memory.Holds 40 (body.code links) := by
    unfold Memory.Holds
    decide +kernel
  obtain ⟨m', hreach, hstate, hout⟩ :=
    (threaded_code_has_effect_of_body (m := machine) laid hcode rfl (.inl rfl)).1 _ _ eval
  refine ⟨m', hreach, hstate, ?_⟩
  rw [hout]
  decide

end Countdown

namespace TracedLiteral

open Machine State

/-- The branching words at 14 and 15, and a literal at 10; the cell after it is unwritten. -/
def memory : Memory :=
  (Memory.load ∅ 14 [.builtin .zeroBranch, .builtin .branch]).load 10 [.builtin .lit, .int 5]

def machine : Machine where
  state := running memory ∅ 10 [] []
  console := { tracing := true }

def words : Word → Option Meaning := fun _ => none

theorem laid : Laid Countdown.links words memory where
  zeroBranch := by decide
  branch := by decide
  operation _ _ h := by cases h
  definition _ _ h := by cases h

/-- The one step leaves the literal on the stack and its trace in the output. -/
theorem reaches_machine {m' : Machine} (h : Reaches machine m') (hip : m'.state.ip = 12) :
    m'.console.output.delivered = "@ 10: LIT  5\n" := by
  cases h with
  | refl => exact absurd hip (by decide)
  | @head _ m₁ _ hs hr =>
    obtain ⟨hstate, hout⟩ : m₁.state = running memory ∅ 12 [] [.int 5] ∧
        m₁.console.output.delivered = "@ 10: LIT  5\n" := by
      cases hs
      exact ⟨rfl, by decide⟩
    cases hr with
    | refl => exact hout
    | head hs' _ =>
      have hnone : m₁.state.memory[m₁.state.ip]? = none := by
        rw [hstate]
        decide
      rw [step, hnone] at hs'
      cases hs'

def stuck : Machine where
  state := { running memory ∅ 12 [] [] with nip := 12 }

/-- From an unwritten cell no other machine is reached. -/
theorem reaches_stuck {m' : Machine} (h : Reaches stuck m') : m' = stuck := by
  cases h with
  | refl => rfl
  | head hs _ =>
    have hnone : stuck.state.memory[stuck.state.ip]? = none := by decide
    rw [step, hnone] at hs
    cases hs

/-- Trace text that goes to the output is part of it: the literal writes nothing, and still no machine
that is reached behind it has the output that the body leaves. Nor does the empty body, which takes no
step, put the next pointer where a step would. -/
theorem trace_text_joins_output :
    Laid Countdown.links words memory ∧
      (memory.Holds machine.state.ip ((Body.literal 5).code Countdown.links) ∧
        machine.state.nip = machine.state.ip + 1 ∧
        Body.Eval words (.literal 5) machine.state.stack machine.console.output
          (.done [.int 5] machine.console.output) ∧
        ¬∃ m', Reaches machine m' ∧ m'.state.ip = 12 ∧ m'.console.output = machine.console.output) ∧
      memory.Holds stuck.state.ip (Body.empty.code Countdown.links) ∧
        Body.Eval words .empty stuck.state.stack stuck.console.output (.done [] stuck.console.output) ∧
        ¬∃ m', Reaches stuck m' ∧ m'.state.nip = m'.state.ip + 1 := by
  refine ⟨laid, ⟨?_, rfl, .literal, ?_⟩, fun i hi => absurd hi (Nat.not_lt_zero i), .empty, ?_⟩
  · unfold Memory.Holds
    decide +kernel
  · rintro ⟨m', hreach, hip, hout⟩
    have hdelivered := reaches_machine hreach hip
    rw [hout] at hdelivered
    exact absurd hdelivered (by decide)
  · rintro ⟨m', hreach, hnip⟩
    rw [reaches_stuck hreach] at hnip
    exact absurd hnip (by decide)

end TracedLiteral

end ForthMachine
