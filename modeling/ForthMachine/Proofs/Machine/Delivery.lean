import Mathlib.Data.List.Forall2
import ForthMachine.Proofs.Machine.Accord
import ForthMachine.Proofs.Structured.Operation

namespace ForthMachine

namespace Sink

def TakesAll : Sink → List String → Prop
  | _, [] => True
  | s, piece :: pieces => s.refusal s.offered piece = none ∧ (s.write piece).2.TakesAll pieces

def Open (s : Sink) : Prop := ∀ offered piece, s.refusal offered piece = none

variable {s s' : Sink} {piece : String}

theorem write_of_none (h : s.refusal s.offered piece = none) : s.write piece =
    (none, { s with delivered := s.delivered ++ piece, offered := piece :: s.offered }) := by
  simp only [write, h]

theorem write_of_some {reason : String} (h : s.refusal s.offered piece = some reason) :
    s.write piece = (some reason, { s with offered := piece :: s.offered }) := by
  simp only [write, h]

theorem Open.write (h : s.Open) (piece : String) : (s.write piece).2.Open := by
  rw [write_of_none (h _ _)]
  exact h

theorem Open.offerAll (h : s.Open) (pieces : List String) : (s.offerAll pieces).Open := by
  induction pieces generalizing s with
  | nil => exact h
  | cons piece pieces ih => exact ih (h.write piece)

/-- A sink that takes whatever is offered takes all pieces. -/
theorem Open.takesAll (h : s.Open) (pieces : List String) : s.TakesAll pieces := by
  induction pieces generalizing s with
  | nil => trivial
  | cons piece pieces ih => exact ⟨h _ _, ih (h.write piece)⟩

/-- Pieces that are taken one by one are all delivered. -/
theorem TakesAll.delivered_offerAll {pieces : List String} (h : s.TakesAll pieces) :
    (s.offerAll pieces).delivered = s.delivered ++ String.join pieces := by
  induction pieces generalizing s with
  | nil => simp [Sink.offerAll]
  | cons piece pieces ih =>
    obtain ⟨hfirst, hrest⟩ := h
    have hmore : ((s.write piece).2.offerAll pieces).delivered = _ := ih hrest
    rw [Sink.offerAll, List.foldl_cons, ← Sink.offerAll, hmore, write_of_none hfirst, String.join_cons,
      String.append_assoc]

/-- Pieces that are taken one by one are delivered as to a sink that takes everything. -/
theorem delivered_offerAll {pieces : List String} (h : s.TakesAll pieces) (ho : s'.Open)
    (hd : s.delivered = s'.delivered) : (s.offerAll pieces).delivered = (s'.offerAll pieces).delivered := by
  induction pieces generalizing s s' with
  | nil => exact hd
  | cons piece pieces ih =>
    obtain ⟨htaken, hrest⟩ := h
    apply ih hrest (ho.write piece)
    rw [write_of_none htaken, write_of_none (ho _ _)]
    exact congrArg (· ++ piece) hd

end Sink

namespace Operation

open Machine State

/-- The operation takes a cell from the stack, whatever lies below it, and writes a piece of text for it. -/
def Writes (op : Operation) (c : Cell) (piece : String) : Prop :=
  ∀ S, op.change (c :: S) = .leave S ∧ op.text? (c :: S) = some piece

variable {op : Operation} {M : Memory} {D : Dictionary} {a code : Word} {R : Stack Word} {S : Stack Cell}
  {input : Option Source} {o : Sink} {c : Cell} {cells : List Cell} {piece : String} {pieces : List String}

/-- A reference to an operation that writes one piece, on an output that takes the piece. -/
theorem leads_of_writes (hw : op.Writes c piece) (hc : M[a]? = some (.ref code))
    (hf : M[code]? = some (.builtin op.builtin)) (ho : o.refusal o.offered piece = none) :
    Leads (Shows (running M D a R (c :: S)) input (some o))
      (Shows (running M D (a.plus 1) R S) input (some (o.write piece).2)) := by
  apply leads_of_performs hc (resolve_ref hf)
  obtain ⟨hchange, htext⟩ := hw S
  have heffect : op.effect (c :: S) o = .done S (o.write piece).2 := by
    simp only [effect, hchange, htext, Sink.write_of_none ho]
  exact performs_of_done heffect

/-- An operation again and again writes the pieces for the cells on the stack, by induction on the cells. -/
theorem leads_of_forall_writes (hw : List.Forall₂ op.Writes cells pieces)
    (hcells : M.Holds a (List.replicate cells.length (.ref code)))
    (hf : M[code]? = some (.builtin op.builtin)) (ho : o.TakesAll pieces) :
    Leads (Shows (running M D a R (cells ++ S)) input (some o))
      (Shows (running M D (a.plus cells.length) R S) input (some (o.offerAll pieces))) := by
  induction hw generalizing a o with
  | nil =>
    have ha : a.plus 0 = a := by simp
    simp only [List.nil_append, List.length_nil, ha]
    exact Leads.refl _
  | cons hfirst _ ih =>
    rw [List.length_cons, List.replicate_succ, Memory.holds_cons] at hcells
    have hrest := ih hcells.2 ho.2
    rw [Word.plus_plus, Nat.add_comm] at hrest
    exact (leads_of_writes hfirst hcells.1 hf ho.1).trans hrest

end Operation

namespace Console

/-- The second console is as the first one, but its output takes everything. As long as the text is intact
no trace text goes to the output, and the same has been delivered. -/
structure Heard (intact : Prop) (c d : Console) : Prop where
  input : c.input = d.input
  tracing : c.tracing = d.tracing
  trace : c.trace = d.trace
  openOutput : d.output.Open
  apart : intact → c.KeepsTraceApart
  delivered : intact → c.output.delivered = d.output.delivered

end Console

namespace Machine

open State

variable {m m' m₁ : Machine} {w : Word} {b : Builtin} {intact : Prop} {piece reason : String}

/-- Trace text does not change what is heard, as long as it has a sink of its own. -/
theorem noted_heard : Noted (Console.Heard intact) := by
  intro c d piece h
  cases ht : c.tracing with
  | false =>
    have ht' : d.tracing = false := h.tracing ▸ ht
    have hc : c.note piece = c := by simp [Console.note, ht]
    have hd : d.note piece = d := by simp [Console.note, ht']
    rw [hc, hd]
    exact h
  | true =>
    have ht' : d.tracing = true := h.tracing ▸ ht
    cases hs : c.trace with
    | some sink =>
      have hs' : d.trace = some sink := h.trace ▸ hs
      have hc : c.note piece = { c with trace := some (sink.write piece).2 } := by
        simp [Console.note, ht, hs]
      have hd : d.note piece = { d with trace := some (sink.write piece).2 } := by
        simp [Console.note, ht', hs']
      rw [hc, hd]
      exact ⟨h.input, h.tracing, rfl, h.openOutput, fun _ => .inr rfl, h.delivered⟩
    | none =>
      have hs' : d.trace = none := h.trace ▸ hs
      have hc : c.note piece = { c with output := (c.output.write piece).2 } := by
        simp [Console.note, ht, hs]
      have hd : d.note piece = { d with output := (d.output.write piece).2 } := by
        simp [Console.note, ht', hs']
      -- the text is not intact, for trace text goes to the output
      have hlost : ¬intact := by
        intro hi
        rcases h.apart hi with hoff | hsome
        · cases hoff.symm.trans ht
        · simp [hs] at hsome
      rw [hc, hd]
      exact ⟨h.input, h.tracing, h.trace, h.openOutput.write piece, fun hi => absurd hi hlost,
        fun hi => absurd hi hlost⟩

/-- A piece that is refused fails the step; a piece that is taken goes to both outputs. -/
theorem tallies_write_heard (piece : String) (h : Paired (Console.Heard intact) m m') :
    Tallies (· = .ioFailure) (Console.Heard intact) (Terminal.write piece m) (Terminal.write piece m') := by
  have hheard := h.console
  rw [Operation.write_apply, Operation.write_apply]
  cases hr : m.console.output.refusal m.console.output.offered piece with
  | some reason =>
    rw [Sink.write_of_some hr]
    exact .excused _ rfl
  | none =>
    rw [Sink.write_of_none hr, Sink.write_of_none (hheard.openOutput _ _)]
    refine .ok () ⟨?_, hheard.input, hheard.tracing, hheard.trace, hheard.openOutput, hheard.apart, ?_⟩
    · simp only [Operation.put, h.state]
    · intro hi
      exact congrArg (· ++ piece) (hheard.delivered hi)

theorem heard_input (c d : Console) (i j : Option Source) (h : c.Heard intact d) (he : i = j) :
    Console.Heard intact { c with input := i } { d with input := j } :=
  ⟨he, h.tracing, h.trace, h.openOutput, h.apart, h.delivered⟩

/-- Both machines read from the same input. -/
theorem tallies_read_heard {α : Type} (next : Source → Except Ending α × Source)
    (h : Paired (Console.Heard intact) m m') :
    Tallies (· = .ioFailure) (Console.Heard intact) (onConsole (Terminal.read next) m)
      (onConsole (Terminal.read next) m') :=
  tallies_read h (fun _ _ h => h.input) heard_input (Terminal.accord_take next)

/-- Words that notice a refusal do the same on both sides, up to the first refusal. -/
theorem lockstep_heard : Lockstep (· = .ioFailure) (Console.Heard intact) where
  note := noted_heard
  word _ _ h := tallies_read_heard _ h
  write piece _ _ h := tallies_write_heard piece h

def WordsTaken (m : Machine) : Prop :=
  ∀ w m₁ entries, Runs m w (.builtin .words) m₁ → m₁.state.chain = (entries, none) →
    m₁.console.output.TakesAll (Terminal.listing entries ++ ["\n"])

theorem keepsTraceApart_noteStack : m.noteStack.console.KeepsTraceApart ↔ m.console.KeepsTraceApart := by
  have hfold : ∀ (cells : List Cell) (c : Console),
      (cells.foldl (fun c cell => c.note (" " ++ cell.render)) c).KeepsTraceApart ↔ c.KeepsTraceApart := by
    intro cells
    induction cells with
    | nil => exact fun _ => Iff.rfl
    | cons cell cells ih => exact fun c => (ih _).trans Console.keepsTraceApart_note
  exact Console.keepsTraceApart_note.trans (hfold _ _)

/-- A word that ends its step by itself. -/
theorem step_of_perform (hr : Runs m w (.builtin b) m₁) (hc : b.contract = .ordinary)
    (hp : b.perform w m₁ = .ok none m') :
    step m = .ok () ({ m' with state := { m'.state with ip := m'.state.nip, nip := m'.state.nip + 1 } } :
      Machine).noteStack := by
  obtain ⟨c, w₀, p₀, hcell, hresolve, hinvoke⟩ := invoke_of_runs hr b.name_ne_empty
  rw [step_eq_conclude hcell hresolve, hinvoke, invoke_eq, Action.inWord_apply, Action.bind_apply]
  simp only [Primitive.perform, hc, Action.bind_apply, hp, onState_apply, advance_apply, Action.pure_apply]
  rfl

/-- A step keeps pace with the machine that takes everything, unless a refusal is noticed. -/
theorem keepsPace_heard (hw : intact → m.WordsTaken)
    (ht : intact → (endState (step m)).console.KeepsTraceApart) :
    KeepsPace (· = .ioFailure) (Console.Heard intact) m := by
  intro w b m₁ m₁' hr h
  have hheard := h.console
  apply tallies_perform lockstep_heard h
  · rintro rfl
    exact tallies_key (tallies_read_heard _ h)
  · rintro rfl
    apply tallies_words h
    intro entries hchain
    refine ⟨hheard.input, hheard.tracing, hheard.trace, hheard.openOutput.offerAll _, hheard.apart, ?_⟩
    intro hi
    exact Sink.delivered_offerAll (hw hi w m₁ entries hr hchain) hheard.openOutput (hheard.delivered hi)
  · rintro rfl
    apply tallies_trace h
    intro flag s hs
    refine ⟨hheard.input, rfl, hheard.trace, hheard.openOutput, ?_, hheard.delivered⟩
    intro hi
    have hperform : Builtin.trace.perform w m₁ = .ok none {
        state := { m₁.state with stack := s }
        console := { m₁.console with tracing := !flag.isFalse } } := by
      change Builtin.perform.finish Terminal.trace m₁ = _
      rw [Builtin.perform_finish_apply, trace_apply hs]
    have hend := ht hi
    rw [step_of_perform hr rfl hperform] at hend
    exact keepsTraceApart_noteStack.mp hend

/-- A word that writes takes its operand first. -/
theorem perform_of_text {op : Operation} (h : op.text? m.state.stack = some piece) (w : Word) :
    ∃ s, op.builtin.perform w m = Builtin.perform.finish (Terminal.write piece)
      { m with state := { m.state with stack := s } } := by
  cases op <;> first | contradiction | skip
  case emit =>
    cases hs : m.state.stack with
    | nil =>
      rw [hs] at h
      cases h
    | cons c s =>
      obtain ⟨code, hcode, rfl⟩ : ∃ code, c.code? = some code ∧
          String.singleton (Text.charOfCode code) = piece := by
        rw [hs] at h
        cases hcode : c.code? <;> simp_all [Operation.text?]
      have htake : Terminal.emit m = Terminal.write (String.singleton (Text.charOfCode code))
          { m with state := { m.state with stack := s } } := by
        simp only [Terminal.emit, Action.bind_apply, onState_apply, onStack_apply, hs, Operand.cell_cons,
          hcode, Action.orRaise_some, Action.pure_apply]
      refine ⟨s, ?_⟩
      change Builtin.perform.finish Terminal.emit m = _
      rw [Builtin.perform_finish_apply, Builtin.perform_finish_apply, htake]
  case dot =>
    cases hs : m.state.stack with
    | nil =>
      rw [hs] at h
      cases h
    | cons c s =>
      rw [hs, Operation.text?, Option.some.injEq] at h
      subst h
      have htake : Terminal.dot m = Terminal.write (c.render ++ " ")
          { m with state := { m.state with stack := s } } := by
        simp only [Terminal.dot, Action.bind_apply, onState_apply, onStack_apply, hs, Operand.cell_cons]
      refine ⟨s, ?_⟩
      change Builtin.perform.finish Terminal.dot m = _
      rw [Builtin.perform_finish_apply, Builtin.perform_finish_apply, htake]
  case cr =>
    obtain rfl := Option.some.inj h
    exact ⟨m.state.stack, rfl⟩

/-- A refused piece is a failure of the step, with the reason of the output. -/
theorem step_of_refused {op : Operation} (hr : Runs m w (.builtin op.builtin) m₁)
    (ht : op.text? m₁.state.stack = some piece)
    (href : m₁.console.output.refusal m₁.console.output.offered piece = some reason) :
    ∃ t m', step m = .error t m' ∧ t.kind = .ioFailure ∧ t.cause = some reason ∧
      t.word = op.builtin.name := by
  obtain ⟨s, hperform⟩ := perform_of_text ht w
  obtain ⟨m', hfails⟩ : ∃ m', op.builtin.perform w m₁ =
      .error (.trap { kind := .ioFailure, cause := some reason }) m' := by
    rw [hperform, Builtin.perform_finish_apply, Operation.write_apply, Sink.write_of_some href]
    exact ⟨_, rfl⟩
  obtain ⟨c, w₀, p₀, hcell, hresolve, hinvoke⟩ := invoke_of_runs hr op.builtin.name_ne_empty
  rw [step_eq_conclude hcell hresolve, hinvoke, invoke_eq, Action.inWord_apply, Action.bind_apply]
  simp only [Primitive.perform, Operation.builtin_contract, Action.bind_apply, hfails]
  have hnamed := op.builtin.name_ne_empty
  refine ⟨_, _, rfl, ?_, ?_, ?_⟩ <;>
    simp [bind, Failure.inWord, Trap.inWord, Primitive.name, hnamed]

/-- WORDS succeeds whether the output takes the names or not. -/
theorem step_of_words {entries : List Entry} (hr : Runs m w (.builtin .words) m₁)
    (hc : m₁.state.chain = (entries, none)) : ∃ m', step m = .ok () m' := by
  have hperform : Builtin.words.perform w m₁ = .ok none { m₁ with
      console.output := m₁.console.output.offerAll (Terminal.listing entries ++ ["\n"]) } := by
    change Builtin.perform.finish Terminal.words m₁ = _
    rw [Builtin.perform_finish_apply, words_apply hc]
  exact ⟨_, step_of_perform hr rfl hperform⟩

def heard (m : Machine) : Machine := { m with console.output := m.console.output.unlimited }

/-- At the start nothing has been lost. -/
theorem Paired.heard (hi : intact → m.console.KeepsTraceApart) :
    Paired (Console.Heard intact) m m.heard :=
  ⟨rfl, rfl, rfl, rfl, fun _ _ => rfl, hi, fun _ => rfl⟩

/-- A piece that EMIT, the dot or CR writes and the output refuses is a trap of that step, which carries the
reason. A piece that WORDS writes is not. So a run without such a trap has the states and the traps of the
run with an output that takes everything, and it delivers the same text if WORDS was refused nothing and
no trace text went to the output. -/
theorem output_is_lost_by_words_only (m : Machine) :
    (∀ w (op : Operation) m₁ piece reason, Runs m w (.builtin op.builtin) m₁ →
      op.text? m₁.state.stack = some piece →
      m₁.console.output.refusal m₁.console.output.offered piece = some reason →
      ∃ t m', step m = .error t m' ∧ t.kind = .ioFailure ∧ t.cause = some reason ∧
        t.word = op.builtin.name) ∧
    (∀ w m₁ entries, Runs m w (.builtin .words) m₁ → m₁.state.chain = (entries, none) →
      ∃ m', step m = .ok () m') ∧
    ∀ n, (∀ k, k < n → ∀ t, (after k m).trap? = some t → t.kind ≠ .ioFailure) →
      (∀ k, k ≤ n → (after k m).state = (after k m.heard).state) ∧
      (∀ k, k < n → (after k m).trap? = (after k m.heard).trap?) ∧
      ((∀ k, k ≤ n → (after k m).console.KeepsTraceApart) → (∀ k, k < n → (after k m).WordsTaken) →
        ∀ k, k ≤ n →
          (after k m).console.output.delivered = (after k m.heard).console.output.delivered) := by
  refine ⟨fun w op m₁ piece reason hr ht href => step_of_refused hr ht href,
    fun w m₁ entries hr hc => step_of_words hr hc, fun n hio => ?_⟩
  -- states and traps correspond in any case, the text only as long as nothing was lost unnoticed
  let intact : Prop := (∀ k, k ≤ n → (after k m).console.KeepsTraceApart) ∧
    ∀ k, k < n → (after k m).WordsTaken
  have hstart : Paired (Console.Heard intact) m m.heard := Paired.heard fun hi => hi.1 0 (Nat.zero_le n)
  have hpace (k : Nat) (hk : k < n) :
      KeepsPace (· = .ioFailure) (Console.Heard intact) (after k m) := by
    apply keepsPace_heard
    · exact fun hi => hi.2 k hk
    · intro hi
      rw [← after_succ]
      exact hi.1 (k + 1) hk
  have hrun (k : Nat) (hk : k ≤ n) := hstart.after (n := k) noted_heard
    (fun j hj => hpace j (Nat.lt_of_lt_of_le hj hk)) (fun j hj => hio j (Nat.lt_of_lt_of_le hj hk))
  refine ⟨fun k hk => (hrun k hk).1.state, (hrun n (Nat.le_refl n)).2, fun hapart htaken k hk => ?_⟩
  exact (hrun k hk).1.console.delivered ⟨hapart, htaken⟩

end Machine

namespace PrintAndList

open Machine

/-- A machine about to print a number and to list its one name, with an output that takes some bytes. -/
def machine (budget : Nat) : Machine where
  state := {
    ip := 10
    nip := 11
    memory := Memory.load (Memory.load (Memory.load ∅ Memory.hereAddress [.addr 20, .addr 5, .int 0]) 5
      [.ref 8, .nil, .text "A", .builtin .exit]) 10 [.builtin .dot, .builtin .words]
    dictionary := (∅ : Dictionary).insert { name := "A", code := 8 }
    stack := [.int 5] }
  console := { output := ({} : Sink).limited budget }

/-- The two steps, carried out: one byte too few is not noticed. -/
theorem carried_out :
    (∀ k, k < 2 → (after k (machine 5)).trap? = none ∧ (after k (machine 4)).trap? = none) ∧
    (∀ k, k ≤ 2 → (after k (machine 5)).console.tracing = false) ∧
    (after 1 (machine 5)).state.memory[(after 1 (machine 5)).state.ip]? = some (.builtin .words) ∧
    ((after 1 (machine 5)).begin (.builtin .words)).state.chain = ([{ name := "A", code := 8 }], none) ∧
    (after 2 (machine 5)).console.output.delivered = "5 A \n" ∧
    (after 2 (machine 4)).console.output.delivered = "5 A " ∧
    (after 2 (machine 4).heard).console.output.delivered = "5 A \n" := by
  decide +kernel

theorem wordsTaken_machine {k : Nat} (hk : k < 2) : (after k (machine 5)).WordsTaken := by
  intro w m₁ entries hr hentries
  obtain ⟨-, -, hcell, hchain, -⟩ := carried_out
  obtain rfl | rfl : k = 0 ∨ k = 1 := by omega
  · obtain ⟨hp, -⟩ := runs_single (b := .dot) (c := .builtin .dot) rfl rfl (by decide) hr
    cases hp
  · obtain ⟨-, rfl⟩ := runs_single hcell rfl (by decide) hr
    cases hchain.symm.trans hentries
    exact ⟨by decide +kernel, by decide +kernel, trivial⟩

end PrintAndList

namespace Machine

open PrintAndList

/-- With enough room the listing arrives as at an output that takes everything; with one byte less its last
piece is lost, and no step fails. -/
theorem listing_loses_its_end :
    ((after 2 (machine 5)).console.output.delivered =
        (after 2 (machine 5).heard).console.output.delivered ∧
      (after 2 (machine 5)).console.output.delivered = "5 A \n") ∧
    ((∀ k, k < 2 → (after k (machine 4)).trap? = none) ∧
      (after 2 (machine 4)).state = (after 2 (machine 4).heard).state ∧
      (after 2 (machine 4)).console.output.delivered = "5 A " ∧
      (after 2 (machine 4).heard).console.output.delivered = "5 A \n") := by
  obtain ⟨htraps, htracing, -, -, hfive, hfour, hheard⟩ := carried_out
  have hquiet {m : Machine} (h : ∀ k, k < 2 → (after k m).trap? = none) :
      ∀ k, k < 2 → ∀ t, (after k m).trap? = some t → t.kind ≠ .ioFailure := by
    intro k hk t ht
    rw [h k hk] at ht
    cases ht
  obtain ⟨-, -, hrun⟩ := output_is_lost_by_words_only (machine 5)
  obtain ⟨-, -, hsame⟩ := hrun 2 (hquiet fun k hk => (htraps k hk).1)
  obtain ⟨-, -, hrun'⟩ := output_is_lost_by_words_only (machine 4)
  obtain ⟨hstates, -⟩ := hrun' 2 (hquiet fun k hk => (htraps k hk).2)
  refine ⟨⟨?_, hfive⟩, fun k hk => (htraps k hk).2, hstates 2 (Nat.le_refl 2), hfour, hheard⟩
  exact hsame (fun k hk => .inl (htracing k hk)) (fun k hk => wordsTaken_machine hk) 2 (Nat.le_refl 2)

end Machine

end ForthMachine
