import ForthMachine.Proofs.Image.Ending
import ForthMachine.Proofs.Machine.Accord

namespace ForthMachine

open State

namespace Source

/-- A line break ends a word or a comment, so the reader goes on behind it as at the start of a text. -/
theorem scan_append_newline (s : Scan) (r b : List Char) :
    scan s (r ++ '\n' :: b) = match scan s r with
      | .delimited word rest => .delimited word (rest ++ '\n' :: b)
      | .final word => .delimited word b
      | .absent => scan .outside b := by
  have hblank : Text.isBlank '\n' = true := by decide
  fun_induction scan s r
  case case1 => simp [scan, hblank]
  case case2 => simp [scan]
  case case3 => simp [scan, hblank]
  case case4 ih | case7 ih =>
    simpa [scan] using ih
  case case5 hc hb ih | case6 hc hb ih =>
    simpa [scan, hc, hb] using ih
  case case8 hc ih =>
    simpa [scan, hc] using ih
  case case9 hb => simp [scan, hb]
  case case10 hb ih =>
    simpa [scan, hb] using ih

def Continues (b : List Char) (i j : Option Source) : Prop :=
  ∃ r r', i = some { rest := r } ∧ j = some { rest := r' } ∧ (r' = r ++ '\n' :: b ∨ r = [] ∧ r' = b)

def ReadAlike (i j : Option Source) : Prop := Terminal.take nextWord i = Terminal.take nextWord j

variable {b : List Char} {i j : Option Source}

/-- Both inputs give the same word, as long as the first one has a word. -/
theorem Continues.accord_nextWord (h : Continues b i j) :
    Accord (fun f => f.kind = .endOfInput) (Continues b) (Terminal.take nextWord i)
      (Terminal.take nextWord j) := by
  obtain ⟨r, r', rfl, rfl, rfl | ⟨rfl, rfl⟩⟩ := h
  · have hscan := scan_append_newline .outside r b
    cases hr : scan .outside r with
    | delimited word rest =>
      rw [hr] at hscan
      simp only [Terminal.take, nextWord, hr, hscan]
      exact .ok _ ⟨rest, _, rfl, rfl, .inl rfl⟩
    | final word =>
      -- the end of the first input ends this word, and the line break ends it in the second one
      rw [hr] at hscan
      simp only [Terminal.take, nextWord, hr, hscan]
      exact .ok _ ⟨[], b, rfl, rfl, .inr ⟨rfl, rfl⟩⟩
    | absent =>
      simp only [Terminal.take, nextWord, hr]
      exact .excused _ rfl
  · exact .excused _ rfl

/-- Both inputs give the same character, or the first one has come to its end. -/
theorem Continues.accord_nextChar (h : Continues b i j) :
    Accord (fun f => f.kind = .endOfInput) (Continues b) (Terminal.take nextChar i)
      (Terminal.take nextChar j) := by
  obtain ⟨r, r', rfl, rfl, rfl | ⟨rfl, rfl⟩⟩ := h
  · cases r with
    | nil => exact .excused _ rfl
    | cons c r => exact .ok c ⟨r, _, rfl, rfl, .inl rfl⟩
  · exact .excused _ rfl

/-- Where the first input has no word, the second one is read like a text that begins behind the line
break. -/
theorem Continues.readAlike_of_dry {f : Failure} {k : Option Source} (h : Continues b i j)
    (hdry : Terminal.take nextWord i = .error f k) : ReadAlike (some { rest := b }) j := by
  unfold ReadAlike
  obtain ⟨r, r', rfl, rfl, rfl | ⟨-, rfl⟩⟩ := h
  · have hscan := scan_append_newline .outside r b
    cases hr : scan .outside r with
    | delimited word rest =>
      simp only [Terminal.take, nextWord, hr] at hdry
      cases hdry
    | final word =>
      simp only [Terminal.take, nextWord, hr] at hdry
      cases hdry
    | absent =>
      rw [hr] at hscan
      simp only [Terminal.take, nextWord, hscan]
  · rfl

end Source

namespace Machine

variable {m m₁ m₂ m₃ : Machine} {w : Word} {b : List Char}

/-- Every word does the same on both inputs, unless it finds the first one at its end. -/
theorem keepsPace_continues (b : List Char) (m : Machine) :
    KeepsPace (· = .endOfInput) (Console.Fed (Source.Continues b)) m :=
  keepsPace_fed_of_reads (fun _ _ h => h.accord_nextWord) (fun _ _ h => h.accord_nextChar)

/-- With the same input every word keeps two machines side by side. -/
theorem keepsPace_same (m : Machine) : KeepsPace (fun _ => False) (Console.Fed Eq) m :=
  keepsPace_fed_of_reads (Terminal.accord_take _) (Terminal.accord_take _)

/-- Reading a word from inputs that give the same word and then go on alike. -/
theorem tallies_nextWord_of_readAlike {m m' : Machine} (h : Paired (Console.Fed Source.ReadAlike) m m') :
    Tallies (fun _ => False) (Console.Fed Eq) (Terminal.nextWord m) (Terminal.nextWord m') := by
  have hfed := h.console
  have hread : Terminal.take Source.nextWord m.console.input =
      Terminal.take Source.nextWord m'.console.input := hfed.input
  simp only [Terminal.nextWord, onConsole_apply, Terminal.read_apply, ← hread]
  cases Terminal.take Source.nextWord m.console.input with
  | ok a k => exact .ok a ⟨h.state, rfl, hfed.output, hfed.tracing, hfed.trace⟩
  | error f k => exact .error f ⟨h.state, rfl, hfed.output, hfed.tracing, hfed.trace⟩

/-- A word that is not there leaves the machine as it was, up to the input. -/
theorem nextWord_error {m m' : Machine} {f : Failure} (h : Terminal.nextWord m = .error f m') :
    ∃ i, Terminal.take Source.nextWord m.console.input = .error f i ∧
      m' = { m with console.input := i } := by
  rw [Terminal.nextWord, onConsole_apply, Terminal.read_apply] at h
  cases ht : Terminal.take Source.nextWord m.console.input with
  | ok a i =>
    rw [ht] at h
    cases h
  | error f' i =>
    rw [ht] at h
    cases h
    exact ⟨i, rfl, rfl⟩

theorem nextWord_of_empty (h : m.console.input = some { rest := [] }) :
    ∃ m', Terminal.nextWord m = .error (.ofKind .endOfInput) m' := by
  rw [Terminal.nextWord, onConsole_apply, Terminal.read_apply, h]
  exact ⟨_, rfl⟩

/-- The step ends where INTERPRET finds no word. -/
theorem step_of_dry (hr : Runs m₁ w (.builtin .interpret) m₂)
    (hdry : Terminal.nextWord m₂ = .error (.ofKind .endOfInput) m₃) :
    ∃ t, step m₁ = .error t { m₃ with console := m₃.console.note "\n" } ∧ t.kind = .endOfInput := by
  obtain ⟨c, w₀, p₀, hc, hresolve, hinvoke⟩ := invoke_of_runs hr (Builtin.name_ne_empty .interpret)
  have hperform : (Primitive.builtin .interpret).perform w m₂ = .error (.ofKind .endOfInput) m₃ := by
    simp only [Primitive.perform, Builtin.contract, Builtin.perform, Compiler.interpret,
      Action.bind_apply, hdry]
  have hfails : invoke w (.builtin .interpret) m₂ =
      .error ((Failure.ofKind .endOfInput).inWord Builtin.interpret.name) m₃ := by
    rw [invoke_eq, Action.inWord_apply, Action.bind_apply, hperform]
    rfl
  rw [step_eq_conclude hc hresolve, hinvoke, hfails]
  refine ⟨_, rfl, ?_⟩
  rw [kind_bind, Failure.kind_inWord, Failure.kind_ofKind]

/-- Two machines at the same cell, which refers to INTERPRET. The first one runs it at once; the second one
comes to an INTERPRET in the same step, and both read the same word. -/
theorem accord_interpret {i : Word} (href : m.state.memory[m.state.ip]? = some (.ref i))
    (hfield : m.state.memory[i]? = some (.builtin .interpret))
    (hmemory : m₁.state.memory = m.state.memory) (hip : m₁.state.ip = m.state.ip)
    (hnip : m₁.state.nip = m.state.nip) (hr : Runs m₁ w (.builtin .interpret) m₂)
    (h : Paired (Console.Fed Source.ReadAlike) (m.begin (.builtin .interpret)) m₂) :
    Accord (fun _ => False) (Paired (Console.Fed Eq)) (step m) (step m₁) := by
  have hresolve : resolve m.state m.state.ip (.ref i) = .ok (i, .builtin .interpret) := resolve_ref hfield
  have href₁ : m₁.state.memory[m₁.state.ip]? = some (.ref i) := by
    rw [hmemory, hip]
    exact href
  have hresolve₁ : resolve m₁.state m₁.state.ip (.ref i) = .ok (i, .builtin .interpret) := by
    apply resolve_ref
    rw [hmemory]
    exact hfield
  have hperform : Tallies (fun _ => False) (Console.Fed Eq)
      ((Primitive.builtin .interpret).perform i (m.begin (.builtin .interpret)))
      ((Primitive.builtin .interpret).perform w m₂) := by
    apply (tallies_nextWord_of_readAlike h).bind
    intro name n n' hn
    exact tallies_onState (E := fun _ => False) hn _
  rw [step_eq_conclude href hresolve,
    step_of_runs href₁ hresolve₁ hr (Builtin.name_ne_empty .interpret)]
  apply accord_conclude (E := fun _ => False) _ noted_fed hip.symm hnip.symm
  exact tallies_invoke noted_fed (keepsPace_same m) (.first href hresolve) hperform

end Machine

namespace Image

open Machine

/-- The evaluation comes to an INTERPRET that runs at the start of the loop and finds no word any more. -/
def RunsDry (img : Image) (cs : List Char) (m : Machine) : Prop :=
  ∃ m₁ w m₂ m₃, Reaches (img.enter { rest := cs } m) m₁ ∧ m₁.state.ip = img.quit ∧
    Runs m₁ w (.builtin .interpret) m₂ ∧ Terminal.nextWord m₂ = .error (.ofKind .endOfInput) m₃

def Yields (img : Image) (cs : List Char) (m : Machine) (o : Outcome) (st : State) (out : Sink) : Prop :=
  o ≠ .cancelled ∧ ∃ fuel m', img.evaluate fuel { rest := cs } m = (o, m') ∧ m'.state = st ∧
    m'.console.output = out

variable {img : Image} {a b : List Char} {m m' m₁ m₂ m₃ : Machine} {w : Word}

/-- An evaluation is a run from the machine that has entered it. -/
theorem yields_iff_run (cs : List Char) (m : Machine) (o : Outcome) (st : State) (out : Sink) :
    img.Yields cs m o st out ↔ o ≠ .cancelled ∧ ∃ fuel m₁, (img.enter { rest := cs } m).run fuel = (o, m₁) ∧
      m₁.state = st ∧ m₁.console.output = out := by
  refine and_congr_right fun _ => ⟨?_, ?_⟩
  · rintro ⟨fuel, m', h, hst, hout⟩
    have hm' : { ((img.enter { rest := cs } m).run fuel).2 with console.input := m.console.input } = m' :=
      congrArg Prod.snd h
    refine ⟨fuel, ((img.enter { rest := cs } m).run fuel).2, Prod.ext (congrArg Prod.fst h :) rfl, ?_, ?_⟩
    · rw [← hst, ← hm']
    · rw [← hout, ← hm']
  · rintro ⟨fuel, m₁, h, hst, hout⟩
    refine ⟨fuel, { m₁ with console.input := m.console.input }, ?_, hst, hout⟩
    rw [evaluate, h]

/-- Evaluations that have ended end alike, for the longer one ends like either of them. -/
theorem evaluate_unique {source : Source} {n k : Nat} {o o' : Outcome} {m₁ m₂ : Machine}
    (h : img.evaluate n source m = (o, m₁)) (h' : img.evaluate k source m = (o', m₂))
    (ho : o ≠ .cancelled) (ho' : o' ≠ .cancelled) : o = o' ∧ m₁ = m₂ := by
  have hlonger := evaluate_mono img m h ho (Nat.le_add_right n k)
  have hlonger' := evaluate_mono img m h' ho' (Nat.le_add_left k n)
  exact Prod.mk.inj (hlonger.symm.trans hlonger')

/-- The machine that an evaluation leaves, if it comes to an INTERPRET that finds no word. -/
theorem evaluate_of_dry {fuel : Nat} (h : img.evaluate fuel { rest := a } m = (.finished, m'))
    (hreach : Reaches (img.enter { rest := a } m) m₁) (hr : Runs m₁ w (.builtin .interpret) m₂)
    (hdry : Terminal.nextWord m₂ = .error (.ofKind .endOfInput) m₃) :
    m' = { m₃ with console := { m₃.console.note "\n" with input := m.console.input } } := by
  obtain ⟨t, hstep, hkind⟩ := step_of_dry hr hdry
  obtain ⟨n, hn⟩ := hreach.run
  have hend : (img.enter { rest := a } m).run (n + 1) =
      (.finished, { m₃ with console := m₃.console.note "\n" }) := by
    rw [hn 1, run, hstep]
    simp [hkind]
  have hfinal : img.evaluate (n + 1) { rest := a } m =
      (.finished, { m₃ with console := { m₃.console.note "\n" with input := m.console.input } }) := by
    rw [evaluate, hend]
  exact (evaluate_unique h hfinal (by decide) (by decide)).2

/-- The state in which INTERPRET has found no word is the one in which the next evaluation begins. -/
theorem enter_of_dry (hip : m₁.state.ip = img.quit) (hr : Runs m₁ w (.builtin .interpret) m₂)
    (hm' : m'.state = m₂.state) (cs : List Char) : (img.enter { rest := cs } m').state = m₂.state := by
  obtain ⟨earlier, htrail⟩ := hr.trail
  obtain ⟨-, hm₂⟩ := htrail.state
  simp only [enter, hm', hm₂, State.taking, State.begun, hip]

/-- An INTERPRET that begins the next evaluation finds what the INTERPRET before would have found, if the
source had gone on. -/
theorem paired_resumed {m₂' : Machine}
    (hdry : Terminal.nextWord m₂ = .error (.ofKind .endOfInput) m₃)
    (hm' : m' = { m₃ with console := { m₃.console.note "\n" with input := m.console.input } })
    (htrace : m'.console.KeepsTraceApart) (hstate : (img.enter { rest := b } m').state = m₂.state)
    (hnip : m₂.state.nip = m₂.state.ip + 1) (h : Paired (Console.Fed (Source.Continues b)) m₂ m₂') :
    Paired (Console.Fed Source.ReadAlike) ((img.enter { rest := b } m').begin (.builtin .interpret)) m₂' := by
  obtain ⟨k, htake, rfl⟩ := nextWord_error hdry
  have hread : Source.ReadAlike (some { rest := b }) m₂'.console.input :=
    h.console.input.readAlike_of_dry htake
  have hapart : ({ m₂.console with input := k } : Console).KeepsTraceApart := by
    subst hm'
    exact Console.keepsTraceApart_note.mp htrace
  constructor
  · change (img.enter { rest := b } m').state.begun = m₂'.state
    rw [hstate, State.begun_of_nip hnip]
    exact h.state
  · -- the console has written trace text twice and has got another input, nothing else
    have hended : Console.Fed (fun _ _ => True) { m₂.console with input := k } m₂'.console :=
      fed_input _ _ _ _ h.console trivial
    have hnoted := fed_note_left hended hapart "\n"
    subst hm'
    exact fed_note_left (fed_input _ _ _ _ hnoted hread) htrace _

/-- The first step of an evaluation does what the step at the end of the one before would have done, if
the source had gone on. -/
theorem accord_resumed {m₁' : Machine} (hip : m₁.state.ip = img.quit) (hnip : m₁.state.nip = img.quit + 1)
    (hr : Runs m₁ w (.builtin .interpret) m₂)
    (hdry : Terminal.nextWord m₂ = .error (.ofKind .endOfInput) m₃)
    (hm' : m' = { m₃ with console := { m₃.console.note "\n" with input := m.console.input } })
    (hloop : ∃ i, m'.state.memory[img.quit]? = some (.ref i) ∧
      m'.state.memory[i]? = some (.builtin .interpret))
    (htrace : m'.console.KeepsTraceApart) (h : Paired (Console.Fed (Source.Continues b)) m₁ m₁') :
    Accord (fun _ => False) (Paired (Console.Fed Eq)) (step (img.enter { rest := b } m')) (step m₁') := by
  -- with the longer source the same words hand over, up to the same INTERPRET, which has more to read
  obtain ⟨m₂', hr', hpaired⟩ := h.runs noted_fed (keepsPace_continues b m₁) hr
  obtain ⟨earlier, htrail⟩ := hr.trail
  obtain ⟨-, hm₂⟩ := htrail.state
  have hip₂ : m₂.state.ip = img.quit := by
    rw [hm₂]
    exact hip
  have hnip₂ : m₂.state.nip = m₂.state.ip + 1 := by
    rw [hm₂]
    rfl
  have hm₃ : m'.state = m₂.state := by
    obtain ⟨k, -, rfl⟩ := nextWord_error hdry
    rw [hm']
  have hstate := enter_of_dry hip hr hm₃ b
  obtain ⟨i, href, hfield⟩ := hloop
  rw [hm₃] at href hfield
  refine accord_interpret (i := i) ?_ ?_ ?_ ?_ ?_ hr' ?_
  · rw [hstate, hip₂]
    exact href
  · rw [hstate]
    exact hfield
  · -- up to the INTERPRET nothing was written to memory
    rw [hstate, ← h.state, hm₂]
    rfl
  · rw [hstate, ← h.state, hip₂, hip]
  · rw [hstate, ← h.state, hnip₂, hip₂, hnip]
  · exact paired_resumed hdry hm' htrace hstate hnip₂ hpaired

/-- A source that is cut at a line break can be evaluated in two calls, if the first one ends in the outer
interpreter and does not write trace text to the output then. -/
theorem evaluation_composes {fuel : Nat} (h : img.evaluate fuel { rest := a } m = (.finished, m'))
    (hdry : img.RunsDry a m)
    (hloop : ∃ i, m'.state.memory[img.quit]? = some (.ref i) ∧
      m'.state.memory[i]? = some (.builtin .interpret))
    (htrace : m'.console.KeepsTraceApart) (b : List Char) (o : Outcome) (st : State) (out : Sink) :
    img.Yields (a ++ '\n' :: b) m o st out ↔ img.Yields b m' o st out := by
  obtain ⟨m₁, w, m₂, m₃, hreach, hip, hr, hend⟩ := hdry
  have hm' := evaluate_of_dry h hreach hr hend
  have hnip : m₁.state.nip = img.quit + 1 := by
    rw [← hip]
    exact hreach.nip rfl
  have hstart : Paired (Console.Fed (Source.Continues b)) (img.enter { rest := a } m)
      (img.enter { rest := a ++ '\n' :: b } m) :=
    ⟨rfl, ⟨a, _, rfl, rfl, .inl rfl⟩, rfl, rfl, rfl⟩
  obtain ⟨m₁', hreach', hpaired⟩ := hstart.reaches noted_fed (keepsPace_continues b) hreach
  obtain ⟨n, hn⟩ := hreach'.run
  have haccord := accord_resumed hip hnip hr hend hm' hloop htrace hpaired
  have halike (k : Nat) : RunAlike (Console.Fed Eq) (k + 1) (img.enter { rest := b } m') m₁' :=
    runAlike_succ haccord fun _ _ h => h.runAlike noted_fed keepsPace_same k
  rw [yields_iff_run, yields_iff_run]
  refine and_congr_right fun ho => ⟨?_, ?_⟩
  · rintro ⟨k, m₄, hrun, rfl, rfl⟩
    have hlonger := run_mono hrun ho (by omega : k ≤ n + (k + 1))
    rw [hn] at hlonger
    obtain ⟨hout, hp⟩ := halike k
    rw [hlonger] at hout hp
    refine ⟨k + 1, (run (k + 1) (img.enter { rest := b } m')).2, ?_, hp.state, hp.console.output⟩
    exact Prod.ext hout rfl
  · rintro ⟨k, m₄, hrun, rfl, rfl⟩
    have hlonger := run_mono hrun ho (Nat.le_succ k)
    obtain ⟨hout, hp⟩ := halike k
    rw [hlonger] at hout hp
    refine ⟨n + (k + 1), (run (k + 1) m₁').2, ?_, hp.state.symm, hp.console.output.symm⟩
    rw [hn]
    exact Prod.ext hout.symm rfl

/-- An evaluation ends in one way only. -/
theorem Yields.unique {cs : List Char} {o o' : Outcome} {st st' : State} {out out' : Sink}
    (h : img.Yields cs m o st out) (h' : img.Yields cs m o' st' out') : o = o' ∧ st = st' ∧ out = out' := by
  obtain ⟨ho, n, m₁, he, rfl, rfl⟩ := h
  obtain ⟨ho', k, m₂, he', rfl, rfl⟩ := h'
  obtain ⟨rfl, rfl⟩ := evaluate_unique he he' ho ho'
  exact ⟨rfl, rfl, rfl⟩

theorem yields_evaluate {fuel : Nat} {cs : List Char}
    (h : (img.evaluate fuel { rest := cs } m).1 ≠ .cancelled) :
    img.Yields cs m (img.evaluate fuel { rest := cs } m).1 (img.evaluate fuel { rest := cs } m).2.state
      (img.evaluate fuel { rest := cs } m).2.console.output :=
  ⟨h, fuel, _, rfl, rfl, rfl⟩

end Image

namespace CutSource

open Blueprint ByeInDefinition Machine

def img : Image := ⟨16, 228⟩

def turningTraceOn : List Char := "1 TRACE".toList

/-- Puts INTERPRET behind the image and EXECUTE into the code field of INTERPRET, so that the first cell of
the loop takes INTERPRET from the stack. -/
def diverting : List Char := "215 @ 427 ! 427 139 @ 215 !".toList

def opening : List Char := ": T 5".toList

def entered (a : List Char) : Machine := img.enter { rest := a } installed

/-- The end of the evaluation of a source in a new image, with enough steps for the sources above. -/
def cut (a : List Char) : Outcome × Machine := img.evaluate 19 { rest := a } installed

abbrev Spent (n : Nat) (a : List Char) : Prop :=
  (∀ k, k < n → (after k (entered a)).trap? = none) ∧ (after n (entered a)).state.ip = 228 ∧
    (after n (entered a)).state.memory[(228 : Word)]? = some (.ref 215) ∧
    (after n (entered a)).console.input = some { rest := [] } ∧ (cut a).1 = .finished

abbrev KeepsLoop (a : List Char) : Prop :=
  ∀ k, k ≤ 19 → ∀ i, i < 3 →
    (after k (entered a)).state.memory[Word.plus 228 i]? = installed.state.memory[Word.plus 228 i]?

/-- The three evaluations, carried out. -/
theorem carried_out :
    (Spent 4 turningTraceOn ∧ KeepsLoop turningTraceOn ∧
      (after 4 (entered turningTraceOn)).state.memory[(215 : Word)]? = some (.builtin .interpret) ∧
      (img.evaluate 19 { rest := turningTraceOn ++ ['\n'] } installed).1 = .finished ∧
      (img.evaluate 19 { rest := [] } (cut turningTraceOn).2).1 = .finished ∧
      (img.evaluate 19 { rest := turningTraceOn ++ ['\n'] } installed).2.console.output.delivered ≠
        (img.evaluate 19 { rest := [] } (cut turningTraceOn).2).2.console.output.delivered) ∧
    (Spent 18 diverting ∧ KeepsLoop diverting ∧
      (after 18 (entered diverting)).state.memory[(215 : Word)]? = some (.builtin .execute) ∧
      (after 18 (entered diverting)).state.memory[(427 : Word)]? = some (.builtin .interpret) ∧
      (after 18 (entered diverting)).state.stack = [.int 427] ∧
      (img.evaluate 21 { rest := diverting ++ ['\n', '1'] } installed).1 ≠ .cancelled ∧
      (img.evaluate 19 { rest := ['1'] } (cut diverting).2).1 ≠ .cancelled ∧
      (img.evaluate 21 { rest := diverting ++ ['\n', '1'] } installed).1 ≠
        (img.evaluate 19 { rest := ['1'] } (cut diverting).2).1) ∧
    (Spent 4 opening ∧
      (after 4 (entered opening)).state.memory[(215 : Word)]? = some (.builtin .interpret) ∧
      (cut opening).2.state.memory[(228 : Word)]? = some (.ref 215) ∧
      (cut opening).2.state.memory[(215 : Word)]? = some (.builtin .interpret) ∧
      (cut opening).2.console.tracing = false ∧
      (img.evaluate 19 { rest := "; T .".toList } (cut opening).2).1 = .finished ∧
      (img.evaluate 19 { rest := "; T .".toList } (cut opening).2).2.console.output.delivered = "5 ") := by
  decide +kernel

variable {n : Nat} {a b : List Char}

theorem evaluate_cut (h : Spent n a) : img.evaluate 19 { rest := a } installed = (.finished, (cut a).2) := by
  obtain ⟨-, -, -, -, hfinished⟩ := h
  have hsplit (p : Outcome × Machine) (hp : p.1 = .finished) : p = (.finished, p.2) := Prod.ext hp rfl
  exact hsplit (cut a) hfinished

theorem runsDry_of_interpret (h : Spent n a)
    (hfield : (after n (entered a)).state.memory[(215 : Word)]? = some (.builtin .interpret)) :
    img.RunsDry a installed := by
  obtain ⟨hsteps, hip, href, hinput, -⟩ := h
  generalize hm : after n (entered a) = m₁ at *
  have hreach : Reaches (entered a) m₁ := hm ▸ reaches_after hsteps
  have hfirst : Runs m₁ 215 (.builtin .interpret) (m₁.begin (.builtin .interpret)) :=
    .first (hip ▸ href) (resolve_ref hfield)
  have hempty : (m₁.begin (.builtin .interpret)).console.input = some { rest := [] } :=
    (Console.note_input _ _).trans hinput
  obtain ⟨m₃, hdry⟩ := nextWord_of_empty hempty
  exact ⟨m₁, 215, _, m₃, hreach, hip, hfirst, hdry⟩

theorem runsDry_of_execute (h : Spent n a)
    (hfield : (after n (entered a)).state.memory[(215 : Word)]? = some (.builtin .execute))
    (hcopy : (after n (entered a)).state.memory[(427 : Word)]? = some (.builtin .interpret))
    (hstack : (after n (entered a)).state.stack = [.int 427]) : img.RunsDry a installed := by
  obtain ⟨hsteps, hip, href, hinput, -⟩ := h
  generalize hm : after n (entered a) = m₁ at *
  have hreach : Reaches (entered a) m₁ := hm ▸ reaches_after hsteps
  have hfirst : Runs m₁ 215 (.builtin .execute) (m₁.begin (.builtin .execute)) :=
    .first (hip ▸ href) (resolve_ref hfield)
  have hexecute : (Primitive.builtin .execute).perform 215 (m₁.begin (.builtin .execute)) =
      .ok (some 427) { m₁.begin (.builtin .execute) with
        state := { (m₁.begin (.builtin .execute)).state with stack := [] } } := by
    have htaken : (m₁.begin (.builtin .execute)).state.stack = [.int 427] := hstack
    simp only [Primitive.perform, Builtin.contract, Builtin.perform, Action.map_apply, onState_apply,
      onStack_apply, htaken, Operand.token_cons, Cell.token?]
    rfl
  have hsecond := hfirst.next hexecute hcopy
  generalize hm₂ : ({ m₁.begin (.builtin .execute) with
    state := { (m₁.begin (.builtin .execute)).state with stack := [] } } : Machine) = m₂ at hsecond
  have hempty : ({ m₂ with console := m₂.console.note ("-> " ++ (Primitive.builtin .interpret).name ++
      " ") } : Machine).console.input = some { rest := [] } := by
    change (m₂.console.note _).input = _
    rw [Console.note_input, ← hm₂]
    exact (Console.note_input _ _).trans hinput
  obtain ⟨m₃, hdry⟩ := nextWord_of_empty hempty
  exact ⟨m₁, 427, _, m₃, hreach, hip, hsecond, hdry⟩

/-- Two evaluations that end differently do not yield the same. -/
theorem not_yields_iff {k l : Nat} (h : (img.evaluate k { rest := a ++ '\n' :: b } installed).1 ≠ .cancelled)
    (h' : (img.evaluate l { rest := b } (cut a).2).1 ≠ .cancelled)
    (hne : (img.evaluate k { rest := a ++ '\n' :: b } installed).1 ≠
        (img.evaluate l { rest := b } (cut a).2).1 ∨
      (img.evaluate k { rest := a ++ '\n' :: b } installed).2.console.output.delivered ≠
        (img.evaluate l { rest := b } (cut a).2).2.console.output.delivered) :
    ¬∀ o st out, img.Yields (a ++ '\n' :: b) installed o st out ↔ img.Yields b (cut a).2 o st out := by
  intro hiff
  have hboth := (hiff _ _ _).mp (Image.yields_evaluate h)
  obtain ⟨houtcome, -, houtput⟩ := hboth.unique (Image.yields_evaluate h')
  rcases hne with hne | hne
  · exact hne houtcome
  · exact hne (congrArg Sink.delivered houtput)

end CutSource

namespace Image

open Blueprint ByeInDefinition CutSource Machine

/-- Two sources whose evaluation in two calls differs from the one in a single call, though both first calls
end in the outer interpreter and no step has changed the cells of its loop. The first one turns tracing on:
the step that finds no word writes its trace once more. The second one makes the first cell of the loop run
another word than INTERPRET. -/
theorem cut_shows_in_trace_and_loop :
    (∃ fuel m, install fuel 16 {} = (.ok img, m) ∧ m.state = installed.state) ∧
    installed.console.tracing = false ∧
    (img.evaluate 19 { rest := turningTraceOn } installed = (.finished, (cut turningTraceOn).2) ∧
      img.RunsDry turningTraceOn installed ∧ KeepsLoop turningTraceOn ∧
      ¬∀ o st out, img.Yields (turningTraceOn ++ '\n' :: []) installed o st out ↔
        img.Yields [] (cut turningTraceOn).2 o st out) ∧
    (img.evaluate 19 { rest := diverting } installed = (.finished, (cut diverting).2) ∧
      img.RunsDry diverting installed ∧ KeepsLoop diverting ∧
      ¬∀ o st out, img.Yields (diverting ++ '\n' :: ['1']) installed o st out ↔
        img.Yields ['1'] (cut diverting).2 o st out) := by
  obtain ⟨⟨hspent, hloop, hfield, hwhole, hrest, hdelivered⟩,
    ⟨hspent', hloop', hfield', hcopy', hstack', hwhole', hrest', houtcome'⟩, -⟩ := carried_out
  have hbase : isValidBase defaultBase = true := by decide
  obtain ⟨fuel, m, hinstall, hstate, -⟩ := install_apply hbase {}
  rw [← image, image_default] at hinstall
  have hended {o : Outcome} (h : o = .finished) : o ≠ .cancelled := by
    rw [h]
    decide
  refine ⟨⟨fuel, m, hinstall fuel (Nat.le_refl fuel), hstate⟩, rfl, ?_, ?_⟩
  · refine ⟨evaluate_cut hspent, runsDry_of_interpret hspent hfield, hloop, ?_⟩
    exact not_yields_iff (hended hwhole) (hended hrest) (.inr hdelivered)
  · refine ⟨evaluate_cut hspent', runsDry_of_execute hspent' hfield' hcopy' hstack', hloop', ?_⟩
    exact not_yields_iff hwhole' hrest' (.inl houtcome')

/-- A definition that is cut in the middle. -/
theorem definition_cut_in_two :
    img.evaluate 19 { rest := ": T 5".toList } installed = (.finished, (cut opening).2) ∧
      (∃ st out, img.Yields (": T 5".toList ++ '\n' :: "; T .".toList) installed .finished st out ∧
        out.delivered = "5 ") := by
  obtain ⟨-, -, hspent, hfield, href, hinterpret, htracing, hfinished, hdelivered⟩ := carried_out
  have hended : (img.evaluate 19 { rest := "; T .".toList } (cut opening).2).1 ≠ .cancelled := by
    rw [hfinished]
    decide
  have hrest := yields_evaluate hended
  rw [hfinished] at hrest
  have hwhole := (evaluation_composes (evaluate_cut hspent) (runsDry_of_interpret hspent hfield)
    ⟨215, href, hinterpret⟩ (.inl htracing) _ _ _ _).mpr hrest
  exact ⟨evaluate_cut hspent, _, _, hwhole, hdelivered⟩

end Image

end ForthMachine
