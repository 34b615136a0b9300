import ForthMachine.Proofs.Machine.Accord

namespace ForthMachine

namespace Console

/-- The same input and the same output, with a trace sink of its own on either side. Whether text is
traced, and what the sinks make of it, may differ. -/
structure Beside (c d : Console) : Prop where
  input : c.input = d.input
  output : c.output = d.output
  left : c.trace.isSome = true
  right : d.trace.isSome = true

end Console

namespace Machine

variable {E : Trap.Kind → Prop} {m m' : Machine}

/-- Trace text goes to the sinks that are kept for it. -/
theorem noted_beside : Noted Console.Beside := by
  intro c d piece h
  have hc : c.KeepsTraceApart := .inr h.left
  have hd : d.KeepsTraceApart := .inr h.right
  refine ⟨?_, ?_, ?_, ?_⟩
  · rw [Console.note_input, Console.note_input]
    exact h.input
  · rw [hc.note_output, hd.note_output]
    exact h.output
  · rw [Console.note_trace]
    exact h.left
  · rw [Console.note_trace]
    exact h.right

theorem tallies_read_beside {α : Type} (next : Source → Except Ending α × Source)
    (h : Paired Console.Beside m m') : Tallies E Console.Beside
      (onConsole (Terminal.read next) m) (onConsole (Terminal.read next) m') := by
  apply tallies_read h (S := Eq)
  · exact fun _ _ h => h.input
  · exact fun _ _ _ _ h hi => ⟨hi, h.output, h.left, h.right⟩
  · exact Terminal.accord_take next

theorem lockstep_beside : Lockstep E Console.Beside where
  note := noted_beside
  word _ _ h := tallies_read_beside Source.nextWord h
  write _ _ _ h := by
    have hbeside := h.console
    exact tallies_write h hbeside.output fun _ => ⟨hbeside.input, rfl, hbeside.left, hbeside.right⟩

/-- Every word does the same whether it is traced or not. -/
theorem keepsPace_beside (m : Machine) : KeepsPace E Console.Beside m := by
  intro w b m₁ m₁' _ h
  have hbeside := h.console
  apply tallies_perform lockstep_beside h
  · intro _
    exact tallies_key (tallies_read_beside Source.nextChar h)
  · intro _
    apply tallies_words h
    intro entries _
    rw [← hbeside.output]
    exact ⟨hbeside.input, rfl, hbeside.left, hbeside.right⟩
  · intro _
    apply tallies_trace h
    intro flag s _
    exact ⟨hbeside.input, hbeside.output, hbeside.left, hbeside.right⟩

def tracedTo (m : Machine) (sink : Sink) (on : Bool) : Machine :=
  { m with console := { m.console with trace := some sink, tracing := on } }

/-- A machine that traces and one that does not, or any two of the kind, are in the same state after any
number of steps, have written the same text to the output and read the same input, and raise the same
traps. The sinks may take or refuse the trace text as they like, and the program may turn tracing on and
off. -/
theorem tracing_makes_no_difference (m : Machine) (sink sink' : Sink) (on on' : Bool) (n : Nat) :
    (after n (m.tracedTo sink on)).state = (after n (m.tracedTo sink' on')).state ∧
    (after n (m.tracedTo sink on)).console.output = (after n (m.tracedTo sink' on')).console.output ∧
    (after n (m.tracedTo sink on)).console.input = (after n (m.tracedTo sink' on')).console.input ∧
    (after n (m.tracedTo sink on)).trap? = (after n (m.tracedTo sink' on')).trap? := by
  have hstart : Paired Console.Beside (m.tracedTo sink on) (m.tracedTo sink' on') :=
    ⟨rfl, rfl, rfl, rfl, rfl⟩
  have hrun (k : Nat) := hstart.after (n := k) noted_beside
    (fun j _ => keepsPace_beside (E := fun _ => False) (after j _)) (fun _ _ _ _ => id)
  obtain ⟨hpaired, -⟩ := hrun n
  obtain ⟨-, htraps⟩ := hrun (n + 1)
  exact ⟨hpaired.state, hpaired.console.output, hpaired.console.input, htraps n (Nat.lt_succ_self n)⟩

end Machine

end ForthMachine
