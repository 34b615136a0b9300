import ForthMachine.Proofs.Dictionary.Observation
import ForthMachine.Proofs.Image.Essential

namespace ForthMachine

open Memory State Machine

namespace Blueprint

variable {base : Word}

/-- A part of the image is one more definition, with its header on top. -/
theorem wellFormed_add {q : Placement} {headers : List Header}
    (hw : WellFormedAt q.memory q.dictionary (base.plus q.used) headers)
    (hl : q.link = Header.linkTo headers) (p : Part)
    (hn : (base.plus q.used).toInt + p.size < Word.bound) :
    WellFormedAt (add base q p).memory (add base q p).dictionary (base.plus (add base q p).used)
      (⟨base.plus q.used, p.name⟩ :: headers) := by
  rw [size_eq (field base)] at hn
  have henter := hw.enter p.name (p.cells (field base)) { immediate := p.immediate } hn
  rw [Word.plus_plus, Word.plus_plus, ← size_eq, ← hl] at henter
  exact henter

/-- A well-formed state stays so while parts are placed on it. -/
theorem wellFormed_foldl {ps : List Part} {q : Placement} {headers : List Header}
    (hw : WellFormedAt q.memory q.dictionary (base.plus q.used) headers)
    (hl : q.link = Header.linkTo headers)
    (hn : (base.plus q.used).toInt + size ps < Word.bound) :
    ∃ headers', WellFormedAt (ps.foldl (add base) q).memory (ps.foldl (add base) q).dictionary
      (base.plus (q.used + size ps)) headers' := by
  induction ps generalizing q headers with
  | nil => exact ⟨headers, hw⟩
  | cons p ps ih =>
    rw [size_cons] at hn
    have hadd := wellFormed_add hw hl p (by omega)
    have hint : (base.plus (add base q p).used).toInt = (base.plus q.used).toInt + p.size := by
      rw [used_add, ← Word.plus_plus]
      exact Word.toInt_plus (by omega)
    obtain ⟨headers', hrest⟩ := ih hadd rfl (by omega)
    refine ⟨headers', ?_⟩
    rwa [used_add, Nat.add_assoc] at hrest

/-- Without any header a state is well formed. -/
theorem wellFormed_start (hb : 3 ≤ base.toInt) :
    WellFormedAt (start base).memory (start base).dictionary (base.plus (start base).used) [] := by
  have hs := sound_start base
  exact ⟨⟨hs.here, hs.latest, by simp, trivial, rfl⟩, (Word.plus_zero base).symm ▸ hb⟩

/-- An image that does not wrap around is well formed. -/
theorem wellFormed_idle (hb : Image.isValidBase base = true)
    (hn : base.toInt ≤ (base.plus (size parts)).toInt) : (idle base parts).WellFormed := by
  have hbase : 3 ≤ base.toInt := by
    have hlt : 2 < base.toInt := by
      simpa [Image.isValidBase, stateAddress, Int64.lt_iff_toInt_lt] using hb
    omega
  have hlt : base.toInt + size parts < Word.bound :=
    Word.lt_bound_of_le_plus (by rw [size_parts]; decide) hn
  have hzero : base.plus (start base).used = base := Word.plus_zero base
  obtain ⟨headers, hw⟩ := wellFormed_foldl (wellFormed_start hbase) rfl (hzero.symm ▸ hlt)
  rw [show parts.foldl (add base) (start base) = placed base parts by rw [placed]] at hw
  exact ⟨_, headers, hw⟩

theorem latest_parts (hf : Free base (size parts)) :
    (placed base parts).memory[latestAddress]? = some (.addr (base.plus 404)) := by
  have hsplit : parts = parts.dropLast ++ [colon "SPACE" (.ofWords ["BL", "EMIT"])] := by
    decide +kernel
  have hsize : size parts.dropLast = 404 := by decide +kernel
  have hlink : (placed base parts).link = .addr (base.plus 404) := by
    rw [hsplit, placed_concat]
    change Cell.addr (base.plus (placed base parts.dropLast).used) = _
    rw [used_placed, hsize]
  rw [(sound_parts hf).latest, hlink]

end Blueprint

namespace Image

open Blueprint

/-- Headers and names agree in every image that is installed in a fresh machine and does not wrap around.
They go on to agree through every reset, definition, compiled cell and step, whether it succeeds or fails,
as long as the next free address does not wrap around and no store hits the headers or the two variables
that lead to them. While they agree, the chain is the list of all entries, newest first; the newest entry
is the first of the chain; a name stands for the first visible entry that has it; and WORDS writes the
visible names in this order. -/
theorem headers_agree_with_names :
    (∀ fuel base console img m, install fuel base { console } = (.ok img, m) →
      (∀ h, m.state.memory[hereAddress]? = some (.addr h) → base ≤ h) → m.state.WellFormed) ∧
    (∀ st : State, st.WellFormed →
      (∀ ip, (st.reset ip).WellFormed) ∧
      (∀ name, st.NoWrap (endState (define name st)) → (endState (define name st)).WellFormed) ∧
      (∀ c, st.NoWrap (endState (comma c st)) → (endState (comma c st)).WellFormed)) ∧
    (∀ m : Machine, m.state.WellFormed → m.state.NoWrap (endState (step m)).state →
      (∀ w b m₁, Runs m w (.builtin b) m₁ → ∀ a ∈ b.writes m₁.state, ¬m.state.Guards a) →
      (endState (step m)).state.WellFormed) ∧
    (∀ m : Machine, m.state.WellFormed →
      m.state.chain = (m.state.dictionary.entries.toList.reverse, none) ∧
      (∀ e, m.state.chain.1.head? = some e →
        ∃ i, latest m.state = .ok i m.state ∧ m.state.dictionary.entries[i]? = some e) ∧
      (∀ name, m.state.dictionary.find? name = m.state.chain.1.find? (Dictionary.isNamed name)) ∧
      Terminal.words m = .ok () { m with
        console.output := m.console.output.offerAll (Terminal.listing m.state.chain.1 ++ ["\n"]) }) := by
  refine ⟨?_, ?_, ?_, ?_⟩
  · intro fuel base console img m hi hn
    obtain ⟨hbase, -, hstate⟩ := install_result hi
    have hf : Free base (size parts) := free_of_isValidBase hbase (by decide)
    rw [hstate] at hn ⊢
    exact wellFormed_idle hbase (Int64.le_iff_toInt_le.mp (hn _ (here_parts hf)))
  · intro st hw
    refine ⟨hw.reset, fun name hn => ?_, fun c hn => ?_⟩
    · exact hw.builds (builds_define name) (by omega) hn
    · exact hw.builds (builds_comma c) (by omega) hn
  · intro m hw hn hs
    exact wellFormed_step hw hn hs
  · intro m hw
    refine ⟨hw.chain, fun e he => hw.latest he, hw.find?, ?_⟩
    rw [hw.chain]
    exact words_apply hw.chain

end Image

namespace StoreByHeader

def memory : Memory :=
  load (load (load ∅ hereAddress [.addr 20, .addr 5, .int 0]) 5
    [.ref 8, .nil, .text "A", .prim (some (.builtin .exit))]) 10 [.prim (some (.builtin .store))]

def machine : Machine where
  state := {
    ip := 10
    nip := 11
    memory
    dictionary := (∅ : Dictionary).insert { name := "A", code := 8 }
    stack := [.addr 30, .int 7] }

theorem wellFormed_machine : machine.state.WellFormed := by
  refine ⟨20, [⟨5, "A"⟩], ⟨⟨by decide, by decide, by decide, ⟨by decide, by decide, ?_, trivial⟩, rfl⟩,
    by decide⟩⟩
  unfold Memory.Holds
  decide

theorem runs_machine {w : Word} {p : Primitive} {m₁ : Machine} (h : Runs machine w p m₁) :
    p = .builtin .store ∧ m₁.state = machine.state := by
  induction h with
  | first hc hr =>
    obtain rfl : Cell.prim (some (.builtin .store)) = _ := Option.some.inj hc
    cases hr
    exact ⟨rfl, rfl⟩
  | @next w code p q m₁ m₂ _ hp _ ih =>
    obtain ⟨rfl, -⟩ := ih
    obtain ⟨r, hrun, -, hnext⟩ := perform_builtin .store w m₁
    obtain ⟨m', hm', -⟩ := hnext _ _ hp
    -- a store does not hand over, so no other primitive follows
    exact absurd (hrun.trans hm') Builtin.finish_ne_some

end StoreByHeader

namespace Image

open Blueprint StoreByHeader

/-- An installed image; then a second definition, and a store, in the machine with one header. -/
theorem store_keeps_headers :
    (∃ fuel img m, install fuel 16 {} = (.ok img, m) ∧ m.state.WellFormed) ∧
      (endState (define "B" machine.state)).WellFormed ∧
      (endState (step machine)).state.WellFormed ∧
      (endState (step machine)).state.chain = ([{ name := "A", code := 8 }], none) := by
  obtain ⟨hinstall, hkeep, hstep, hchain⟩ := headers_agree_with_names
  have hnoWrap {st : State} {h : Word} (hh : st.memory[hereAddress]? = some (.addr h)) (hle : 20 ≤ h) :
      machine.state.NoWrap st := by
    intro h₀ h' hh₀ hh'
    cases hh₀
    cases hh.symm.trans hh'
    exact hle
  have hw : (endState (step machine)).state.WellFormed := by
    apply hstep machine wellFormed_machine (hnoWrap (h := 20) (by decide) (by decide))
    intro w b m₁ hr a ha hg
    obtain ⟨hb, hstate⟩ := runs_machine hr
    cases hb
    rw [hstate] at ha
    obtain rfl : a = 30 := by simpa [Builtin.writes, machine, Cell.address?] using ha
    rcases hg with hg | hg | ⟨e, he, i, hi, hi', hcode⟩
    · exact absurd hg (by decide)
    · exact absurd hg (by decide)
    · have hmem : e ∈ [({ name := "A", code := 8 } : Entry)] := he
      obtain rfl := List.mem_singleton.mp hmem
      have hbelow : ∀ i ≤ 3, Word.plus 30 i ≠ 8 := by decide
      exact hbelow i hi' hcode
  refine ⟨?_, ?_, hw, (hchain _ hw).1⟩
  · have hbase : isValidBase 16 = true := by decide
    obtain ⟨n, m, hok, hstate, -⟩ := install_apply hbase {}
    refine ⟨n, _, m, hok n (Nat.le_refl n), hinstall n 16 {} _ m (hok n (Nat.le_refl n)) ?_⟩
    intro h hh
    rw [hstate] at hh
    cases (here_parts (free_of_isValidBase hbase (by decide))).symm.trans hh
    rw [size_parts]
    decide
  · exact (hkeep _ wellFormed_machine).2.1 "B" (hnoWrap (h := 23) (by decide) (by decide))

/-- Without entries the next free address can be that of a variable, and a cell that is compiled there
destroys the chain. An image that wraps around has headers at negative addresses. -/
theorem headers_part_from_names :
    (∃ st : State, Linked st.memory st.dictionary 1 [] ∧ st.NoWrap (endState (comma (.int 7) st)) ∧
      ∀ h headers, ¬Linked (endState (comma (.int 7) st)).memory (endState (comma (.int 7) st)).dictionary
        h headers) ∧
    ∃ fuel img m, install fuel 9223372036854775707 {} = (.ok img, m) ∧
      ∀ h headers, ¬Linked m.state.memory m.state.dictionary h headers := by
  constructor
  · refine ⟨{ memory := load ∅ hereAddress [.addr 1, .nil] }, ⟨by decide, by decide, by simp, trivial, rfl⟩,
      ?_, ?_⟩
    · intro h h' hh hh'
      cases hh
      cases hh'
      decide
    · intro h headers hl
      have hlatest := hl.latest
      cases headers <;> cases hlatest
  · have hbase : isValidBase 9223372036854775707 = true := by decide
    have hf : Free 9223372036854775707 (size parts) := free_of_isValidBase hbase (by decide)
    obtain ⟨n, m, hinstall, hstate, -⟩ := install_apply hbase {}
    refine ⟨n, _, m, hinstall n (Nat.le_refl n), fun h headers hl => ?_⟩
    have hlatest := hl.latest
    rw [hstate] at hlatest
    change (placed _ parts).memory[latestAddress]? = _ at hlatest
    rw [latest_parts hf] at hlatest
    cases headers with
    | nil => cases hlatest
    | cons x rest =>
      have hlink : Word.plus 9223372036854775707 404 = x.link := Cell.addr.inj (Option.some.inj hlatest)
      have hlow := hl.chained.1
      rw [← hlink] at hlow
      exact absurd hlow (by decide)

end Image

end ForthMachine
