import ForthMachine.Proofs.Machine.Turn
import ForthMachine.Proofs.Memory.Entry

/-!
The chain of headers in memory and the index of names hold the same dictionary. In a well-formed state
the headers lie below the next free address, each above the one that it links to, and the entries of the
dictionary are those of the headers in the same order. Definitions are built above all headers, so they
keep a state well formed; so does every store that leaves the headers alone.
-/

namespace ForthMachine

open Memory State

namespace Word

/-- A small step that does not wrap around leads upwards. -/
theorem lt_bound_of_le_plus {a : Word} {n : Nat} (hn : n ≤ bound) (h : a.toInt ≤ (a.plus n).toInt) :
    a.toInt + n < bound := by
  have hmin := Int64.le_toInt a
  have hmax := Int64.toInt_lt a
  have hsize : Int64.size = 2 ^ 64 := rfl
  unfold bound at hn ⊢
  rw [plus, Int64.toInt_add, Int64.toInt_ofNat', hsize, Int.add_bmod_bmod, Int.bmod_def] at h
  split at h <;> omega

end Word

structure Header where
  link : Word
  name : String
  deriving DecidableEq, Repr

namespace Header

def linkTo : List Header → Cell
  | [] => .nil
  | x :: _ => .addr x.link

def entry (x : Header) : String × Word := (x.name, x.link.plus 3)

/-- The address is that of one of the three cells of a header. -/
def Covers (x : Header) (a : Word) : Prop := ∃ i, i < 3 ∧ a = x.link.plus i

end Header

/-- Headers lie in memory, newest first: each one links to the next, which lies below it, and none of
them is among the system variables. -/
def Memory.Chained (M : Memory) : List Header → Prop
  | [] => True
  | x :: rest => 3 ≤ x.link.toInt ∧ (∀ y ∈ rest, y.link.toInt < x.link.toInt) ∧
      M.Holds x.link (entryCells x.link (Header.linkTo rest) x.name []) ∧ M.Chained rest

def Dictionary.history (D : Dictionary) : List (String × Word) :=
  D.entries.toList.reverse.map fun e => (e.name, e.code)

/-- Memory and dictionary hold the given headers, and `h` is the next free address, above all of them. -/
structure Linked (M : Memory) (D : Dictionary) (h : Word) (headers : List Header) : Prop where
  here : M[hereAddress]? = some (.addr h)
  latest : M[latestAddress]? = some (Header.linkTo headers)
  below : ∀ x ∈ headers, x.link.toInt + 3 ≤ h.toInt
  chained : M.Chained headers
  history : D.history = headers.map Header.entry

structure WellFormedAt (M : Memory) (D : Dictionary) (h : Word) (headers : List Header) : Prop extends
    Linked M D h headers where
  room : 3 ≤ h.toInt

/-- Memory and dictionary agree on the definitions that there are. -/
def State.WellFormed (st : State) : Prop :=
  ∃ h headers, WellFormedAt st.memory st.dictionary h headers

section Chained

variable {M M' : Memory} {headers : List Header} {h a : Word} {n : Nat} {x : Header}

theorem Memory.Chained.three_le (hc : M.Chained headers) (hx : x ∈ headers) : 3 ≤ x.link.toInt := by
  induction headers with
  | nil => cases hx
  | cons y rest ih =>
    rcases List.mem_cons.mp hx with rfl | hx
    · exact hc.1
    · exact ih hc.2.2.2 hx

/-- The chain depends on the cells of its headers alone. -/
theorem Memory.Chained.congr (hc : M.Chained headers)
    (h : ∀ x ∈ headers, ∀ a, x.Covers a → M'[a]? = M[a]?) : M'.Chained headers := by
  induction headers with
  | nil => trivial
  | cons x rest ih =>
    obtain ⟨hthree, hbelow, hcells, hrest⟩ := hc
    refine ⟨hthree, hbelow, fun i hi => ?_, ih hrest fun y hy => h y (by simp [hy])⟩
    rw [h x (by simp) _ ⟨i, hi, rfl⟩]
    exact hcells i hi

/-- Above the system variables there is room as long as addresses do not wrap around. -/
theorem free_of_three_le (hh : 3 ≤ h.toInt) (hn : h.toInt + n ≤ Word.bound) : Free h n := by
  have hsystem (i : Nat) (hi : i < n) (k : Word) (hk : k.toInt < 3) : h.plus i ≠ k := by
    intro he
    have hint := Word.toInt_plus (a := h) (n := i) (by omega)
    rw [he] at hint
    omega
  refine ⟨?_, fun i hi => hsystem i hi _ (by decide), fun i hi => hsystem i hi _ (by decide),
    fun i hi => hsystem i hi _ (by decide)⟩
  unfold Word.bound at hn
  unfold Word.count
  omega

/-- The cells of a header are no system variables, and they lie below every block that is above it. -/
theorem Header.Covers.fixed (hx : x.Covers a) (hl : 3 ≤ x.link.toInt) (hb : x.link.toInt + 3 ≤ h.toInt)
    (hn : h.toInt + n ≤ Word.bound) :
    a ≠ hereAddress ∧ a ≠ latestAddress ∧ a ≠ stateAddress ∧ Outside h n a := by
  obtain ⟨i, hi, rfl⟩ := hx
  have hint := Word.toInt_plus (a := x.link) (n := i) (by omega)
  have hne (k : Word) (hk : k.toInt < 3) : x.link.plus i ≠ k := by
    intro he
    rw [he] at hint
    omega
  refine ⟨hne _ (by decide), hne _ (by decide), hne _ (by decide), fun j hj he => ?_⟩
  have hint' := Word.toInt_plus (a := h) (n := j) (by omega)
  rw [he, hint] at hint'
  omega

theorem eq_of_here {d : Cell} (hh : M[hereAddress]? = some (.addr h)) (hd : M[hereAddress]? = some d)
    (ha : d.address? = some a) : a = h := by
  rw [hh, Option.some.injEq] at hd
  subst hd
  exact (Option.some.inj ha).symm

end Chained

/-- A new header is linked to the first one of the chain. -/
theorem State.latestLink_of_headers {st : State} {headers : List Header}
    (h : st.memory[latestAddress]? = some (Header.linkTo headers)) :
    st.latestLink = .ok (Header.linkTo headers) := by
  rw [State.latestLink, h]
  cases headers <;> rfl

theorem Dictionary.history_insert (D : Dictionary) (e : Entry) :
    (D.insert e).history = (e.name, e.code) :: D.history := by
  rw [history, entries_insert, List.reverse_append, List.map_append]
  rfl

namespace WellFormedAt

variable {M M' : Memory} {D D' : Dictionary} {h : Word} {headers : List Header}

/-- A state stays well formed when nothing is changed but the mode, flags and cells outside the headers. -/
theorem congr (hw : WellFormedAt M D h headers) (hd : D'.history = D.history)
    (hh : M'[hereAddress]? = M[hereAddress]?) (hl : M'[latestAddress]? = M[latestAddress]?)
    (hx : ∀ x ∈ headers, ∀ a, x.Covers a → M'[a]? = M[a]?) : WellFormedAt M' D' h headers where
  here := hh.trans hw.here
  latest := hl.trans hw.latest
  room := hw.room
  below := hw.below
  chained := hw.chained.congr hx
  history := hd.trans hw.history

theorem mode (hw : WellFormedAt M D h headers) (c : Cell) :
    WellFormedAt (M.insert stateAddress c) D h headers := by
  refine hw.congr rfl (getElem?_insert_ne _ _ (by decide)) (getElem?_insert_ne _ _ (by decide)) ?_
  intro x hx a ha
  have hfixed := ha.fixed (n := 0) (hw.chained.three_le hx) (hw.below x hx) (by
    have := Int64.toInt_lt h
    unfold Word.bound
    omega)
  exact getElem?_insert_ne _ _ (Ne.symm hfixed.2.2.1)

theorem flags (hw : WellFormedAt M D h headers) (i : Nat) (f : Flags → Flags) :
    WellFormedAt M (D.modifyFlags i f) h headers := by
  refine hw.congr ?_ rfl rfl fun _ _ _ _ => rfl
  rw [Dictionary.history, Dictionary.history, Dictionary.entries_modifyFlags, List.map_reverse,
    List.map_reverse, Dictionary.map_modify_of_forall_eq]
  intro e
  rfl

/-- A cell of code is compiled above all headers. -/
theorem cell (hw : WellFormedAt M D h headers) (c : Cell) (hn : h.toInt + 1 < Word.bound) :
    WellFormedAt ((M.insert h c).insert hereAddress (.addr (h + 1))) D (h.plus 1) headers := by
  have hint : (h.plus 1).toInt = h.toInt + 1 := Word.toInt_plus hn
  have hroom := hw.room
  have hfree : Free h 1 := free_of_three_le hw.room (Int.le_of_lt hn)
  have hkeep (a : Word) (ha : a ≠ hereAddress) (ho : Outside h 1 a) :
      ((M.insert h c).insert hereAddress (.addr (h + 1)))[a]? = M[a]? := by
    have hne : h ≠ a := by simpa using ho 0 (by omega)
    rw [getElem?_insert_ne _ _ (Ne.symm ha), getElem?_insert_ne _ _ hne]
  refine ⟨⟨getElem?_insert_eq _ _ _, ?_, fun x hx => ?_, ?_, hw.history⟩, by omega⟩
  · rw [hkeep _ (by decide) hfree.latest]
    exact hw.latest
  · have hbelow := hw.below x hx
    omega
  · refine hw.chained.congr fun x hx a ha => ?_
    have hfixed := ha.fixed (hw.chained.three_le hx) (hw.below x hx) (Int.le_of_lt hn)
    exact hkeep a hfixed.1 hfixed.2.2.2

/-- A definition whose header becomes the first one of the chain. -/
theorem enter (hw : WellFormedAt M D h headers) (name : String) (cells : List Cell) (flags : Flags)
    (hn : h.toInt + (3 + cells.length : Nat) < Word.bound) :
    WellFormedAt (M.enter h (Header.linkTo headers) name cells)
      (D.insert { name, code := h.plus 3, flags }) (h.plus (3 + cells.length))
      (⟨h, name⟩ :: headers) := by
  have hint : (h.plus (3 + cells.length)).toInt = h.toInt + (3 + cells.length : Nat) :=
    Word.toInt_plus hn
  have hroom := hw.room
  have hfree : Free h (3 + cells.length) := free_of_three_le hw.room (Int.le_of_lt hn)
  refine ⟨⟨enter_here, enter_latest hfree, ?_, ⟨hw.room, ?_, ?_, ?_⟩, ?_⟩, by omega⟩
  · intro x hx
    rcases List.mem_cons.mp hx with rfl | hx
    · simp only
      omega
    · have hbelow := hw.below x hx
      omega
  · intro x hx
    have hbelow := hw.below x hx
    simp only
    omega
  · have hall : (M.enter h (Header.linkTo headers) name cells).Holds h
        (entryCells h (Header.linkTo headers) name [] ++ cells) := enter_holds hfree
    exact (holds_append.mp hall).1
  · refine hw.chained.congr fun x hx a ha => ?_
    have hfixed := ha.fixed (hw.chained.three_le hx) (hw.below x hx) (Int.le_of_lt hn)
    exact enter_outside hfixed.1 hfixed.2.1 hfixed.2.2.2
  · rw [Dictionary.history_insert, hw.history]
    rfl

/-- An edit that does not wrap around keeps memory and dictionary well formed. -/
theorem edit {x y : Memory × Dictionary} {k : Nat} (he : Edit x k y)
    (hw : WellFormedAt x.1 x.2 h headers) (hk : h.toInt + k < Word.bound) :
    ∃ headers', WellFormedAt y.1 y.2 (h.plus k) headers' := by
  cases he with
  | mode M D c =>
    rw [Word.plus_zero]
    exact ⟨headers, hw.mode c⟩
  | flags M D i f =>
    rw [Word.plus_zero]
    exact ⟨headers, hw.flags i f⟩
  | cell D c hd ha =>
    obtain rfl := eq_of_here hw.here hd ha
    exact ⟨headers, hw.cell c hk⟩
  | @header M d link a D name hd ha hl =>
    obtain rfl := eq_of_here hw.here hd ha
    have hlink : State.latestLink { memory := M } = .ok (Header.linkTo headers) :=
      latestLink_of_headers hw.latest
    obtain rfl : Header.linkTo headers = link := Except.ok.inj (hlink.symm.trans hl)
    rw [enter_nil (free_of_three_le hw.room (Int.le_of_lt hk)).latest]
    exact ⟨_, hw.enter name [] {} hk⟩

end WellFormedAt

/-- An edit moves the next free address on. It leaves the cell that holds it as it is, or writes an
address. -/
theorem hereCell_of_edit {x y : Memory × Dictionary} {k : Nat} {d : Cell} {h : Word} (he : Edit x k y)
    (hd : x.1[hereAddress]? = some d) (hh : d.address? = some h) :
    ∃ d', y.1[hereAddress]? = some d' ∧ d'.address? = some (h.plus k) ∧ (d' = d ∨ d' = .addr (h.plus k)) := by
  cases he with
  | mode M D c =>
    rw [Word.plus_zero]
    exact ⟨d, (getElem?_insert_ne _ _ (by decide)).trans hd, hh, .inl rfl⟩
  | flags M D i f =>
    rw [Word.plus_zero]
    exact ⟨d, hd, hh, .inl rfl⟩
  | cell D c hd' ha =>
    cases hd.symm.trans hd'
    cases hh.symm.trans ha
    exact ⟨.addr (h.plus 1), getElem?_insert_eq _ _ _, rfl, .inr rfl⟩
  | header D name hd' ha hl =>
    cases hd.symm.trans hd'
    cases hh.symm.trans ha
    exact ⟨.addr (h.plus 3), (getElem?_insert_ne _ _ (by decide)).trans (getElem?_insert_eq _ _ _), rfl,
      .inr rfl⟩

/-- Edits leave an address in the variable for the next free one. -/
theorem hereCell_of_amends {x y : Memory × Dictionary} {k : Nat} {d : Cell} {h : Word} (ha : Amends x k y)
    (hd : x.1[hereAddress]? = some d) (hh : d.address? = some h) :
    ∃ d', y.1[hereAddress]? = some d' ∧ d'.address? = some (h.plus k) ∧ (d' = d ∨ d' = .addr (h.plus k)) := by
  induction ha generalizing d h with
  | refl x =>
    rw [Word.plus_zero]
    exact ⟨d, hd, hh, .inl rfl⟩
  | @head x y z m n he _ ih =>
    obtain ⟨d₁, hd₁, hh₁, hor₁⟩ := hereCell_of_edit he hd hh
    obtain ⟨d₂, hd₂, hh₂, hor₂⟩ := ih hd₁ hh₁
    rw [Word.plus_plus] at hh₂ hor₂
    refine ⟨d₂, hd₂, hh₂, ?_⟩
    rcases hor₂ with rfl | rfl
    · rcases hor₁ with rfl | rfl
      · exact .inl rfl
      · -- the address was written before and has not moved since
        exact .inr (congrArg Cell.addr (Option.some.inj hh₂))
    · exact .inr rfl

/-- The next free address moves by as many cells as the edits take. -/
theorem here_of_amends {x y : Memory × Dictionary} {k : Nat} {h : Word} (ha : Amends x k y)
    (hh : x.1[hereAddress]? = some (.addr h)) : y.1[hereAddress]? = some (.addr (h.plus k)) := by
  obtain ⟨d, hd, hk, rfl | rfl⟩ := hereCell_of_amends ha hh rfl
  · exact hd.trans (congrArg (some ∘ Cell.addr) (Option.some.inj hk))
  · exact hd

/-- Edits one after another, by induction; the next free address moves on with each of them. -/
theorem WellFormedAt.amends {x y : Memory × Dictionary} {k : Nat} {h : Word} {headers : List Header}
    (ha : Amends x k y) (hw : WellFormedAt x.1 x.2 h headers) (hk : h.toInt + k < Word.bound) :
    ∃ headers', WellFormedAt y.1 y.2 (h.plus k) headers' := by
  induction ha generalizing h headers with
  | refl x =>
    rw [Word.plus_zero]
    exact ⟨headers, hw⟩
  | @head x y z m n he _ ih =>
    obtain ⟨headers', hw'⟩ := hw.edit he (by omega)
    have hint : (h.plus m).toInt = h.toInt + m := Word.toInt_plus (by omega)
    rw [← Word.plus_plus]
    exact ih hw' (by omega)

namespace State

/-- From one state to another the next free address has not wrapped around. -/
def NoWrap (st st' : State) : Prop :=
  ∀ h h', st.memory[hereAddress]? = some (.addr h) → st'.memory[hereAddress]? = some (.addr h') → h ≤ h'

/-- The cells that the chain rests on: two system variables, and the headers of the entries. -/
def Guards (st : State) (a : Word) : Prop :=
  a = hereAddress ∨ a = latestAddress ∨
    ∃ e ∈ st.dictionary.entries.toList, ∃ i, 1 ≤ i ∧ i ≤ 3 ∧ a.plus i = e.code

variable {st st' : State}

/-- Building keeps a state well formed unless addresses wrap around. -/
theorem WellFormed.amends {k : Nat} (hw : st.WellFormed) (hk : k ≤ 4) (hn : st.NoWrap st')
    (ha : Amends st.contents k st'.contents) : st'.WellFormed := by
  obtain ⟨h, headers, hw⟩ := hw
  have hle : h.toInt ≤ (h.plus k).toInt :=
    Int64.le_iff_toInt_le.mp (hn h _ hw.here (here_of_amends ha hw.here))
  -- at most four cells are taken, so the sum has not wrapped around
  have hlt : h.toInt + k < Word.bound := by
    refine Word.lt_bound_of_le_plus ?_ hle
    unfold Word.bound
    omega
  obtain ⟨headers', hw'⟩ := WellFormedAt.amends ha hw hlt
  exact ⟨_, headers', hw'⟩

/-- Whatever builds definitions keeps the state well formed, if the next free address does not wrap around.
-/
theorem WellFormed.builds {α : Type} {n : Nat} {x : Action State α} (hw : st.WellFormed)
    (hx : Builds whole n x) (hn : n ≤ 4) (hwrap : st.NoWrap (endState (x st))) :
    (endState (x st)).WellFormed := by
  obtain ⟨k, hk, ha⟩ := hx st
  exact hw.amends (Nat.le_trans hk hn) hwrap ha

theorem WellFormed.reset (hw : st.WellFormed) (ip : Word) : (st.reset ip).WellFormed := by
  obtain ⟨h, headers, hw⟩ := hw
  exact ⟨h, headers, hw.mode (.int 0)⟩

/-- The cells of the headers are among those that the chain rests on. -/
theorem guards_of_covers {h : Word} {headers : List Header} {x : Header} {a : Word}
    (hw : WellFormedAt st.memory st.dictionary h headers) (hx : x ∈ headers) (ha : x.Covers a) :
    st.Guards a := by
  have hentry : x.entry ∈ st.dictionary.history := by
    rw [hw.history]
    exact List.mem_map_of_mem hx
  obtain ⟨e, he, hcode⟩ := List.mem_map.mp hentry
  obtain ⟨i, hi, rfl⟩ := ha
  -- counted from the code field, the cells of a header are one to three cells below
  refine .inr (.inr ⟨e, List.mem_reverse.mp he, 3 - i, by omega, by omega, ?_⟩)
  rw [Word.plus_plus, Nat.add_sub_cancel' (by omega)]
  exact (congrArg Prod.snd hcode).symm

/-- Stores that spare the chain keep a state well formed. -/
theorem WellFormed.overwrites {addresses : List Word} (hw : st.WellFormed)
    (ho : Overwrites addresses st st') (hs : ∀ a ∈ addresses, ¬st.Guards a) : st'.WellFormed := by
  obtain ⟨h, headers, hw⟩ := hw
  have hkeep (a : Word) (ha : st.Guards a) : st'.memory[a]? = st.memory[a]? :=
    ho.memory a fun hmem => hs a hmem ha
  refine ⟨h, headers, hw.congr (by rw [ho.dictionary]) (hkeep _ (.inl rfl)) (hkeep _ (.inr (.inl rfl))) ?_⟩
  exact fun x hx a ha => hkeep a (guards_of_covers hw hx ha)

end State

/-- A step keeps a state well formed, whether it succeeds or fails, unless addresses wrap around or a
store hits the chain. -/
theorem Machine.wellFormed_step {m : Machine} (hw : m.state.WellFormed)
    (hn : m.state.NoWrap (endState (step m)).state)
    (hs : ∀ w b m₁, Runs m w (.builtin b) m₁ → ∀ a ∈ b.writes m₁.state, ¬m.state.Guards a) :
    (endState (step m)).state.WellFormed := by
  rcases settled_step m with ⟨k, hk, ha⟩ | ⟨w, b, m₁, hr, hc, ho⟩
  · exact hw.amends hk hn ha
  · obtain ⟨hm, hd⟩ := Prod.mk.inj hc
    have hstore : Overwrites (b.writes m₁.state) m.state (endState (step m)).state := by
      refine ⟨ho.dictionary.trans hd, fun a ha => ?_⟩
      rw [← hm]
      exact ho.memory a ha
    exact hw.overwrites hstore (hs w b m₁ hr)

end ForthMachine
