import ForthMachine.Proofs.Dictionary.Sameness

namespace ForthMachine.State

open Memory

variable {st : State} {c d : Cell} {link : Word} {links followed : List Word} {entries more : List Entry}
  {e : Entry} {t : Trap} {fuel : Nat}

def entryAt? (st : State) (link : Word) : Option Entry :=
  st.memory[link]?.bind fun cell => cell.number?.bind st.dictionary.byCode?

/-- From `c` on the links are followed one after the other, each to a header with an entry, and the cell
after the last of them is `d`. -/
inductive Follows (st : State) : Cell → List Word → List Entry → Cell → Prop
  | here (c : Cell) : Follows st c [] [] c
  | next {c next d : Cell} {link : Word} {links : List Word} {e : Entry} {entries : List Entry}
      (hlink : c.address? = some link) (hentry : st.entryAt? link = some e)
      (hnext : st.memory[link + 1]? = some next) (hrest : Follows st next links entries d) :
      Follows st c (link :: links) (e :: entries) d

/-- What can stand in the way at the cell `c` when the given links have been followed: the entry that is
still found there, and the trap. -/
inductive Breaks (st : State) (links : List Word) : Cell → List Entry → Trap → Prop
  /-- The cell is no link. -/
  | noLink {c : Cell} (hnil : c ≠ .nil) (hlink : c.address? = none) :
      Breaks st links c [] { kind := .dictionaryInconsistency }
  /-- The link has been followed before. -/
  | again {c : Cell} {link : Word} (hlink : c.address? = some link) (hold : link ∈ links) :
      Breaks st links c [] { kind := .dictionaryInconsistency, address := link }
  /-- The link leads to memory that was never written. -/
  | unwritten {c : Cell} {link : Word} (hlink : c.address? = some link) (hnew : link ∉ links)
      (hcell : st.memory[link]? = none) :
      Breaks st links c [] { kind := .unwrittenAddress, address := link }
  /-- The link leads to a cell that names no entry. -/
  | noEntry {c cell : Cell} {link : Word} (hlink : c.address? = some link) (hnew : link ∉ links)
      (hcell : st.memory[link]? = some cell) (hentry : st.entryAt? link = none) :
      Breaks st links c [] { kind := .dictionaryInconsistency, address := link }
  /-- The header has an entry, and nothing after it. -/
  | cut {c : Cell} {link : Word} {e : Entry} (hlink : c.address? = some link) (hnew : link ∉ links)
      (hentry : st.entryAt? link = some e) (hnext : st.memory[link + 1]? = none) :
      Breaks st links c [e] { kind := .unwrittenAddress, address := link + 1 }

/-- The entries that a walk of at most `fuel` rounds finds, and the trap that ended it early. -/
def walk (st : State) (fuel : Nat) (followed : List Word) (c : Cell) : List Entry × Option Trap :=
  ((st.chainAux fuel followed c).1.filterMap (st.dictionary.entries[·]?), (st.chainAux fuel followed c).2)

theorem chain_of_latest (h : st.memory[latestAddress]? = some c) :
    st.chain = st.walk (st.memory.size + 2) [] c := by
  rw [chain, h]
  rfl

theorem chain_of_unwritten (h : st.memory[latestAddress]? = none) : st.chain = ([], none) := by
  rw [chain, h]

section Header

theorem cell_of_entryAt? (h : st.entryAt? link = some e) :
    ∃ cell code, st.memory[link]? = some cell ∧ cell.number? = some code ∧
      st.dictionary.byCode? code = some e := by
  obtain ⟨cell, hcell, hbind⟩ := Option.bind_eq_some_iff.mp h
  obtain ⟨code, hcode, hby⟩ := Option.bind_eq_some_iff.mp hbind
  exact ⟨cell, code, hcell, hcode, hby⟩

/-- A header that has an entry leads to it. -/
theorem headerPosition_of_entry (h : st.entryAt? link = some e) :
    ∃ i, st.headerPosition link = .ok i ∧ st.dictionary.entries[i]? = some e := by
  obtain ⟨cell, code, hcell, hcode, hby⟩ := cell_of_entryAt? h
  obtain ⟨i, hi, he⟩ := Option.bind_eq_some_iff.mp hby
  refine ⟨i, ?_, he⟩
  simp only [headerPosition, hcell, hcode, Option.bind_some, hi]

theorem headerPosition_of_unwritten (h : st.memory[link]? = none) :
    st.headerPosition link = .error { kind := .unwrittenAddress, address := link } := by
  simp only [headerPosition, h]

/-- A header whose first cell names no entry stops the walk. -/
theorem headerPosition_of_noEntry {cell : Cell} (hcell : st.memory[link]? = some cell)
    (h : st.entryAt? link = none) :
    st.headerPosition link = .error { kind := .dictionaryInconsistency, address := link } := by
  have hnone : cell.number?.bind st.dictionary.codePosition? = none := by
    rw [Option.bind_eq_none_iff]
    intro code hcode
    rcases st.dictionary.codePosition?_cases code with ⟨older, e, newer, hes, -, -, hpos⟩ | ⟨-, hpos⟩
    · have hat : st.dictionary.entries[older.length]? = some e := by
        rw [← Array.getElem?_toList, hes]
        simp
      rw [entryAt?, hcell, Option.bind_some, hcode, Option.bind_some, Dictionary.byCode?, hpos,
        Option.bind_some, hat] at h
      cases h
    · exact hpos
  simp only [headerPosition, hcell, hnone]

end Header

section Round

@[simp] theorem walk_nil : st.walk (fuel + 1) followed .nil = ([], none) := rfl

theorem ne_nil_of_address? (h : c.address? = some link) : c ≠ .nil := by
  rintro rfl
  cases h

/-- A link to a header with an entry is followed, if it was not followed before. -/
theorem walk_next {next : Cell} (hlink : c.address? = some link) (hnew : link ∉ followed)
    (hentry : st.entryAt? link = some e) (hnext : st.memory[link + 1]? = some next) :
    st.walk (fuel + 1) followed c =
      (e :: (st.walk fuel (link :: followed) next).1, (st.walk fuel (link :: followed) next).2) := by
  obtain ⟨i, hpos, he⟩ := headerPosition_of_entry hentry
  simp only [walk, chainAux, if_neg (ne_nil_of_address? hlink), hlink, if_neg hnew, hpos, hnext,
    List.filterMap_cons, he]

/-- The walk ends at whatever stands in its way. -/
theorem walk_breaks (h : st.Breaks followed c more t) : st.walk (fuel + 1) followed c = (more, some t) := by
  cases h with
  | noLink hnil hlink => simp only [walk, chainAux, if_neg hnil, hlink, List.filterMap_nil]
  | again hlink hold =>
    simp only [walk, chainAux, if_neg (ne_nil_of_address? hlink), hlink, if_pos hold, List.filterMap_nil]
  | unwritten hlink hnew hcell =>
    simp only [walk, chainAux, if_neg (ne_nil_of_address? hlink), hlink, if_neg hnew,
      headerPosition_of_unwritten hcell, List.filterMap_nil]
  | noEntry hlink hnew hcell hentry =>
    simp only [walk, chainAux, if_neg (ne_nil_of_address? hlink), hlink, if_neg hnew,
      headerPosition_of_noEntry hcell hentry, List.filterMap_nil]
  | cut hlink hnew hentry hnext =>
    obtain ⟨i, hpos, he⟩ := headerPosition_of_entry hentry
    simp only [walk, chainAux, if_neg (ne_nil_of_address? hlink), hlink, if_neg hnew, hpos, hnext,
      List.filterMap_cons, he, List.filterMap_nil]

/-- A round of the walk ends it or takes one more link. -/
theorem round_cases (st : State) (followed : List Word) (c : Cell) :
    c = .nil ∨ (∃ more t, st.Breaks followed c more t) ∨
      ∃ link e next, c.address? = some link ∧ link ∉ followed ∧ st.entryAt? link = some e ∧
        st.memory[link + 1]? = some next := by
  by_cases hnil : c = .nil
  · exact .inl hnil
  right
  cases hlink : c.address? with
  | none => exact .inl ⟨_, _, .noLink hnil hlink⟩
  | some link =>
    by_cases hold : link ∈ followed
    · exact .inl ⟨_, _, .again hlink hold⟩
    cases hcell : st.memory[link]? with
    | none => exact .inl ⟨_, _, .unwritten hlink hold hcell⟩
    | some cell =>
      cases hentry : st.entryAt? link with
      | none => exact .inl ⟨_, _, .noEntry hlink hold hcell hentry⟩
      | some e =>
        cases hnext : st.memory[link + 1]? with
        | none => exact .inl ⟨_, _, .cut hlink hold hentry hnext⟩
        | some next => exact .inr ⟨link, e, next, rfl, hold, hentry, hnext⟩

end Round

section Run

/-- Only which links have been followed matters, not in which order. -/
theorem Breaks.congr {links' : List Word} (h : st.Breaks links c more t)
    (hmem : ∀ a, a ∈ links ↔ a ∈ links') : st.Breaks links' c more t := by
  cases h with
  | noLink hnil hlink => exact .noLink hnil hlink
  | again hlink hold => exact .again hlink ((hmem _).mp hold)
  | unwritten hlink hnew hcell => exact .unwritten hlink (mt (hmem _).mpr hnew) hcell
  | noEntry hlink hnew hcell hentry => exact .noEntry hlink (mt (hmem _).mpr hnew) hcell hentry
  | cut hlink hnew hentry hnext => exact .cut hlink (mt (hmem _).mpr hnew) hentry hnext

/-- Each link of a walk leads to written memory. -/
theorem Follows.written (h : st.Follows c links entries d) : ∀ a ∈ links, st.memory[a]?.isSome = true := by
  induction h with
  | here => exact List.forall_mem_nil _
  | next hlink hentry _ _ ih =>
    obtain ⟨cell, -, hcell, -⟩ := cell_of_entryAt? hentry
    exact List.forall_mem_cons.mpr ⟨by rw [hcell]; rfl, ih⟩

/-- Links that are all different cannot be more than the cells of memory. -/
theorem Follows.length_le (h : st.Follows c links entries d) (hnodup : links.Nodup) :
    links.length ≤ st.memory.size :=
  length_le_of_written hnodup h.written

/-- As long as no link comes twice, the walk takes the links one by one. -/
theorem Follows.walk (h : st.Follows c links entries d) (hnodup : (links.reverse ++ followed).Nodup)
    (fuel : Nat) :
    st.walk (links.length + fuel) followed c =
      (entries ++ (st.walk fuel (links.reverse ++ followed) d).1,
        (st.walk fuel (links.reverse ++ followed) d).2) := by
  induction h generalizing followed with
  | here => simp
  | @next c next d link links e entries hlink hentry hnext _ ih =>
    rw [List.reverse_cons, List.append_assoc, List.singleton_append] at hnodup ⊢
    have hnew : link ∉ followed := (List.nodup_cons.mp (List.nodup_append.mp hnodup).2.1).1
    rw [List.length_cons, Nat.add_right_comm, walk_next hlink hnew hentry hnext, ih hnodup,
      List.cons_append]

/-- From every cell links can be followed until the walk ends, or for as many rounds as one likes. -/
theorem exists_follows (st : State) (fuel : Nat) (followed : List Word) (c : Cell)
    (hnodup : followed.Nodup) :
    ∃ links entries d, st.Follows c links entries d ∧ (links.reverse ++ followed).Nodup ∧
      (links.length = fuel ∨ d = .nil ∨ ∃ more t, st.Breaks (links.reverse ++ followed) d more t) := by
  induction fuel generalizing followed c with
  | zero => exact ⟨[], [], c, .here c, hnodup, .inl rfl⟩
  | succ fuel ih =>
    rcases round_cases st followed c with hnil | hbreaks | ⟨link, e, next, hlink, hnew, hentry, hnext⟩
    · exact ⟨[], [], c, .here c, hnodup, .inr (.inl hnil)⟩
    · exact ⟨[], [], c, .here c, hnodup, .inr (.inr hbreaks)⟩
    · obtain ⟨links, entries, d, hrest, hnodup', hend⟩ :=
        ih (link :: followed) next (List.nodup_cons.mpr ⟨hnew, hnodup⟩)
      refine ⟨link :: links, e :: entries, d, .next hlink hentry hnext hrest, ?_⟩
      rw [List.reverse_cons, List.append_assoc, List.singleton_append, List.length_cons,
        Nat.add_right_cancel_iff]
      exact ⟨hnodup', hend⟩

/-- Every walk comes to an end before it has taken more links than there are addresses written. -/
theorem exists_end (st : State) (c : Cell) :
    ∃ links entries d, st.Follows c links entries d ∧ links.Nodup ∧
      (d = .nil ∨ ∃ more t, st.Breaks links d more t) := by
  obtain ⟨links, entries, d, hfollows, hnodup, hend⟩ :=
    exists_follows st (st.memory.size + 1) [] c List.nodup_nil
  rw [List.append_nil] at hnodup hend
  have hlen := hfollows.length_le (List.nodup_reverse.mp hnodup)
  refine ⟨links, entries, d, hfollows, List.nodup_reverse.mp hnodup, ?_⟩
  rcases hend with hall | hnil | ⟨more, t, hbreaks⟩
  · -- memory does not have room for so many headers
    omega
  · exact .inl hnil
  · exact .inr ⟨more, t, hbreaks.congr fun _ => List.mem_reverse⟩

/-- With more rounds than links the walk comes to the empty cell. -/
theorem Follows.walk_of_nil (h : st.Follows c links entries .nil) (hnodup : links.Nodup)
    (hfuel : links.length < fuel) : st.walk fuel [] c = (entries, none) := by
  obtain ⟨k, rfl⟩ : ∃ k, fuel = links.length + (k + 1) := ⟨fuel - links.length - 1, by omega⟩
  rw [h.walk (by simpa using hnodup), walk_nil, List.append_nil]

/-- With more rounds than links the walk comes to what stands in its way. -/
theorem Follows.walk_of_breaks (h : st.Follows c links entries d) (hnodup : links.Nodup)
    (hbreaks : st.Breaks links d more t) (hfuel : links.length < fuel) :
    st.walk fuel [] c = (entries ++ more, some t) := by
  obtain ⟨k, rfl⟩ : ∃ k, fuel = links.length + (k + 1) := ⟨fuel - links.length - 1, by omega⟩
  rw [h.walk (by simpa using hnodup), walk_breaks (hbreaks.congr fun _ => by simp)]

theorem Follows.chain_of_nil (h : st.Follows c links entries .nil) (hnodup : links.Nodup)
    (hlatest : st.memory[latestAddress]? = some c) : st.chain = (entries, none) := by
  have hlen := h.length_le hnodup
  calc st.chain
    _ = st.walk (st.memory.size + 2) [] c := chain_of_latest hlatest
    _ = (entries, none) := h.walk_of_nil hnodup (by omega)

theorem Follows.chain_of_breaks (h : st.Follows c links entries d) (hnodup : links.Nodup)
    (hbreaks : st.Breaks links d more t) (hlatest : st.memory[latestAddress]? = some c) :
    st.chain = (entries ++ more, some t) := by
  have hlen := h.length_le hnodup
  calc st.chain
    _ = st.walk (st.memory.size + 2) [] c := chain_of_latest hlatest
    _ = (entries ++ more, some t) := h.walk_of_breaks hnodup hbreaks (by omega)

/-- The walk looks at the links that it takes and at one more at most. -/
theorem Follows.looks_le (h : st.Follows c links entries d) (hnodup : links.Nodup) :
    (links ++ d.address?.toList).length ≤ st.memory.size + 1 := by
  have hlen := h.length_le hnodup
  rw [List.length_append]
  cases d.address? <;> simp <;> omega

end Run

/-- The walk from LATEST on. It takes some links, none of them twice, and then comes to the empty cell or
to something in its way; with that one it has looked at one link more than there are addresses written, at
most, and more rounds would find nothing else. It succeeds exactly if LATEST was never written or links
without a repetition lead to the empty cell, and gives the entries of these links. It fails exactly at what
stands in the way, and gives the entries that it has found by then. -/
theorem chain_follows_links_to_its_end (st : State) :
    (∀ c, st.memory[latestAddress]? = some c → ∃ links entries d,
      st.Follows c links entries d ∧ links.Nodup ∧ (d = .nil ∨ ∃ more t, st.Breaks links d more t) ∧
        (links ++ d.address?.toList).length ≤ st.memory.size + 1 ∧
        ∀ fuel, links.length < fuel → st.walk fuel [] c = st.chain) ∧
    (∀ entries, st.chain = (entries, none) ↔
      st.memory[latestAddress]? = none ∧ entries = [] ∨
        ∃ c links, st.memory[latestAddress]? = some c ∧ st.Follows c links entries .nil ∧ links.Nodup) ∧
    ∀ found t, st.chain = (found, some t) ↔ ∃ c links entries d more,
      st.memory[latestAddress]? = some c ∧ st.Follows c links entries d ∧ links.Nodup ∧
        st.Breaks links d more t ∧ found = entries ++ more := by
  cases hlatest : st.memory[latestAddress]? with
  | none =>
    rw [chain_of_unwritten hlatest]
    simp [eq_comm]
  | some c =>
    obtain ⟨links, entries, d, h, hnodup, hend⟩ := exists_end st c
    refine ⟨?_, fun entries' => ⟨fun heq => .inr ?_, ?_⟩, fun found t => ⟨fun heq => ?_, ?_⟩⟩
    · rintro _ ⟨⟩
      refine ⟨links, entries, d, h, hnodup, hend, h.looks_le hnodup, fun fuel hfuel => ?_⟩
      rcases hend with rfl | ⟨more, t, hb⟩
      · rw [h.chain_of_nil hnodup hlatest, h.walk_of_nil hnodup hfuel]
      · rw [h.chain_of_breaks hnodup hb hlatest, h.walk_of_breaks hnodup hb hfuel]
    · rcases hend with rfl | ⟨more, t, hb⟩
      · cases heq.symm.trans (h.chain_of_nil hnodup hlatest)
        exact ⟨c, links, rfl, h, hnodup⟩
      · cases heq.symm.trans (h.chain_of_breaks hnodup hb hlatest)
    · rintro (⟨hnone, -⟩ | ⟨_, links', ⟨⟩, h', hnodup'⟩)
      · cases hnone
      · exact h'.chain_of_nil hnodup' hlatest
    · rcases hend with rfl | ⟨more, t', hb⟩
      · cases heq.symm.trans (h.chain_of_nil hnodup hlatest)
      · cases heq.symm.trans (h.chain_of_breaks hnodup hb hlatest)
        exact ⟨c, links, entries, d, more, rfl, h, hnodup, hb, rfl⟩
    · rintro ⟨_, links', entries', d', more, ⟨⟩, h', hnodup', hb, rfl⟩
      exact h'.chain_of_breaks hnodup' hb hlatest

end ForthMachine.State

namespace ForthMachine

open State

namespace TwoHeaders

/-- Two headers, the newer one at 10. The link of the older one, at 20, is yet to be filled in. -/
def state (older : Cell) : State where
  memory := Memory.load (Memory.load (Memory.load ∅ Memory.latestAddress [.addr 10]) 10
    [.ref 13, .addr 20, .text "B"]) 20 [.ref 23, older, .text "A"]
  dictionary := .ofList [{ name := "A", code := 23 }, { name := "B", code := 13 }]

theorem follows (older : Cell) :
    (state older).Follows (.addr 10) [10, 20] [{ name := "B", code := 13 }, { name := "A", code := 23 }]
      older :=
  .next rfl rfl rfl (.next rfl rfl rfl (.here older))

end TwoHeaders

namespace State

open TwoHeaders

/-- With the empty cell the walk ends well; with a link back to the newer header it ends there. -/
theorem chain_ends_at_nil_or_at_a_cycle :
    (state .nil).chain = ([{ name := "B", code := 13 }, { name := "A", code := 23 }], none) ∧
      (state (.addr 10)).chain = ([{ name := "B", code := 13 }, { name := "A", code := 23 }],
        some { kind := .dictionaryInconsistency, address := 10 }) := by
  constructor
  · apply ((chain_follows_links_to_its_end (state .nil)).2.1 _).mpr
    exact .inr ⟨_, _, rfl, follows .nil, by decide⟩
  · apply ((chain_follows_links_to_its_end (state (.addr 10))).2.2 _ _).mpr
    exact ⟨_, _, _, _, _, rfl, follows (.addr 10), by decide, .again rfl (by decide), rfl⟩

end State

end ForthMachine
