import ForthMachine.Proofs.Listing.Patching
import ForthMachine.Proofs.Listing.TwoPass

/-!
Assembling in one pass. While items are added, the slots that wait for a label can be filled in only when
the last line has been read. So the invariant says what the slots amount to under every table of labels
that extends the present one: a label never moves once it is defined, and the last table extends itself.
-/

namespace ForthMachine.Listing

theorem lines_eq_splitOn (cs : List Char) : Text.lines cs = cs.splitOn '\n' := by
  induction cs with
  | nil => rfl
  | cons c cs ih =>
    rw [List.splitOn_eq_splitOnP, List.splitOnP_cons_eq_if_modifyHead, ← List.splitOn_eq_splitOnP,
      Text.lines, ih]
    by_cases hc : c = '\n'
    · simp [hc]
    · have hne := List.splitOn_ne_nil '\n' cs
      cases hl : cs.splitOn '\n' with
      | nil => exact absurd hl hne
      | cons line more => simp [hc]

/-- The current run is the beginning of the first piece. -/
theorem fieldsAux_eq (run cs : List Char) : Text.fieldsAux run cs =
    ((cs.splitOnP Text.isSpace).modifyHead (run.reverse ++ ·)).filter (· ≠ []) := by
  induction cs generalizing run with
  | nil => cases run <;> simp [Text.fieldsAux]
  | cons c cs ih =>
    rw [List.splitOnP_cons_eq_if_modifyHead, Text.fieldsAux]
    by_cases hc : Text.isSpace c = true
    · have hrest : Text.fieldsAux [] cs = (cs.splitOnP Text.isSpace).filter (· ≠ []) := by
        rw [ih]
        cases cs.splitOnP Text.isSpace <;> rfl
      cases run <;> simp [hc, hrest]
    · rw [if_neg hc, if_neg hc, ih (c :: run), List.modifyHead_modifyHead]
      congr 2
      funext piece
      simp

/-- A line has the same tokens in both readings. -/
theorem tokens_eq_fields (line : List Char) : tokens line = fields line := by
  rw [tokens, fields, Text.fields, fieldsAux_eq]
  cases (line.takeWhile (· ≠ '\\')).splitOnP Text.isSpace <;> rfl

namespace Assembly

variable {vocabulary : String → Option Cell} {labels : Std.ExtTreeMap String Word}
  {base : Word} {done : List Item} {slots : List Slot} {item : Item} {a a' : Assembly}

def add (vocabulary : String → Option Cell) (a : Assembly) : Item → Except Fault Assembly
  | .directive d x => a.directive vocabulary x d
  | .single token => a.single vocabulary token
  | .incomplete => .error .incomplete

-- an item with the number of its line
def addAt (vocabulary : String → Option Cell) (a : Assembly) (p : Nat × Item) : Except Error Assembly :=
  (a.add vocabulary p.2).mapError (.faulty p.1)

/-- A line adds its items one after another. -/
theorem line_eq (tokens : List String) :
    a.line vocabulary tokens = (group tokens).foldlM (add vocabulary) a := by
  fun_induction group tokens generalizing a with
  | case1 => rfl
  | case2 token rest hd ih =>
    simp only [line, hd, List.foldlM_cons, add]
    cases a.single vocabulary token with
    | error fault => rfl
    | ok a' => exact ih
  | case3 token d hd =>
    simp only [line, hd]
    rfl
  | case4 token d x rest hd ih =>
    simp only [line, hd, List.foldlM_cons, add]
    cases a.directive vocabulary x d with
    | error fault => rfl
    | ok a' => exact ih

theorem foldlM_addAt_line (n : Nat) (its : List Item) :
    (its.map (n, ·)).foldlM (addAt vocabulary) a =
      (its.foldlM (add vocabulary) a).mapError (.faulty n) := by
  induction its generalizing a with
  | nil => rfl
  | cons item its ih =>
    simp only [List.map_cons, List.foldlM_cons, addAt]
    cases a.add vocabulary item with
    | error fault => rfl
    | ok a' => exact ih

/-- The lines add their items one after another, each with the number of its line. -/
theorem lines_eq (n : Nat) (lines : List (List String)) :
    a.lines vocabulary n lines = (numbered n lines).foldlM (addAt vocabulary) a := by
  induction lines generalizing a n with
  | nil => rfl
  | cons tokens rest ih =>
    have hnumbered : numbered n (tokens :: rest) = (group tokens).map (n, ·) ++ numbered (n + 1) rest := by
      simp only [numbered, List.zipIdx_cons, List.flatMap_cons]
    rw [hnumbered, List.foldlM_append, foldlM_addAt_line, Assembly.lines, line_eq]
    cases (group tokens).foldlM (add vocabulary) a with
    | error fault => rfl
    | ok a' => exact ih (n + 1)

def Extends (labels labels' : Std.ExtTreeMap String Word) : Prop :=
  ∀ (name : String) (w : Word), labels[name]? = some w → labels'[name]? = some w

/-- What holds after some items have been added. -/
structure Represents (vocabulary : String → Option Cell) (base : Word) (done : List Item)
    (slots : List Slot) (a : Assembly) : Prop where
  stands : a.Stands base slots
  labels : a.labels = labelTable base done
  size : slots.length = size done
  cells : ∀ labels, Extends a.labels labels →
    fill labels base slots = emit vocabulary labels base done
  missing : ∀ labels, Extends a.labels labels →
    slots.filterMap (Slot.missing? labels) = unresolved labels done

theorem represents_nil (vocabulary : String → Option Cell) (base : Word) :
    Represents vocabulary base [] [] { here := base } :=
  ⟨stands_nil base, rfl, rfl, fun _ _ => rfl, fun _ _ => rfl⟩

/-- An item that defines no label, with the slots that are added for it. -/
theorem Represents.append (h : a.Represents vocabulary base done slots) {new : List Slot}
    (hdefines : item.defines? = none) (hadds : Adds new a a') (hsize : new.length = item.size)
    (hcells : ∀ labels, Extends a.labels labels → ∀ b,
      fill labels b new = item.cells vocabulary labels b)
    (hmissing : ∀ labels, Extends a.labels labels →
      new.filterMap (Slot.missing? labels) = (item.missing? labels).toList) :
    a'.Represents vocabulary base (done ++ [item]) (slots ++ new) := by
  refine ⟨hadds.stands h.stands, ?_, ?_, ?_, ?_⟩
  · rw [labelTable_concat, hdefines, hadds.labels]
    exact h.labels
  · rw [List.length_append, h.size, hsize, size_append]
    rfl
  · intro labels hext
    rw [hadds.labels] at hext
    rw [fill_append, h.cells labels hext, hcells labels hext, h.size, emit_append]
    simp only [emit, List.append_nil]
  · intro labels hext
    rw [hadds.labels] at hext
    rw [List.filterMap_append, h.missing labels hext, hmissing labels hext, unresolved, unresolved,
      List.filterMap_append]
    cases hm : item.missing? labels <;> simp [hm]

theorem missing?_of_refers {x : String} (h : item.refers? = some x) :
    item.missing? labels = if x ∈ labels then none else some x := by
  rw [Item.missing?, h, Option.filter_some]
  by_cases hx : x ∈ labels <;> simp [hx]

theorem missing?_of_integer {d : Directive} {x : String} {n : Word} (hn : integer? x = some n) :
    (Item.directive d x).missing? labels = none := by
  cases d <;> simp [Item.missing?, Item.refers?, hn]

/-- The slot of an operand that is an integer or an address. -/
theorem adds_operand (a : Assembly) (x : String) : ∃ s, Adds [s] a (a.operand x) ∧
    ∀ labels, Extends a.labels labels → (∀ b, s.fill labels b = Item.cells.address labels x) ∧
      s.missing? labels = (Item.directive .cell x).missing? labels := by
  unfold operand
  cases hn : integer? x with
  | some n =>
    unfold integer? at hn
    rw [hn]
    refine ⟨.filled (.int n), adds_push a _, ?_⟩
    intro labels _
    rw [missing?_of_integer hn]
    refine ⟨fun b => ?_, rfl⟩
    simp [Slot.fill, Item.cells.address, integer?, hn]
  | none =>
    have hrefers : (Item.directive .cell x).refers? = some x := by simp [Item.refers?, hn]
    have hnumeral : Numeral.prefixed? x.toList = none := hn
    rw [hnumeral]
    cases hx : a.labels[x]? with
    | some w =>
      -- the label is known, and keeps its address in every table that extends the present one
      refine ⟨.filled (.addr w), adds_push a _, ?_⟩
      intro labels hext
      have hw := hext x w hx
      have hmem : x ∈ labels := Std.ExtTreeMap.mem_iff_isSome_getElem?.mpr (by rw [hw]; rfl)
      refine ⟨fun b => ?_, ?_⟩
      · simp [Slot.fill, Item.cells.address, hn, Std.ExtTreeMap.getD_eq_getD_getElem?, hw]
      · rw [missing?_of_refers hrefers, if_pos hmem]
        rfl
    | none =>
      refine ⟨.waiting x false, adds_await a x false, ?_⟩
      intro labels _
      refine ⟨fun b => ?_, ?_⟩
      · simp [Slot.fill, Item.cells.address, hn]
      · rw [missing?_of_refers hrefers]
        rfl

/-- The slot of an operand that is an integer or a distance. -/
theorem adds_target (a : Assembly) (b : Builtin) (x : String) : ∃ s, Adds [s] a (a.target x) ∧
    ∀ labels, (∀ c, s.fill labels (c + 1) = Item.cells.distance labels c x) ∧
      s.missing? labels = (Item.directive (.branch b) x).missing? labels := by
  unfold target
  cases hn : integer? x with
  | some n =>
    unfold integer? at hn
    rw [hn]
    refine ⟨.filled (.int n), adds_push a _, ?_⟩
    intro labels
    rw [missing?_of_integer hn]
    refine ⟨fun c => ?_, rfl⟩
    simp [Slot.fill, Item.cells.distance, integer?, hn]
  | none =>
    have hrefers : (Item.directive (.branch b) x).refers? = some x := by simp [Item.refers?, hn]
    have hnumeral : Numeral.prefixed? x.toList = none := hn
    rw [hnumeral]
    refine ⟨.waiting x true, adds_await a x true, ?_⟩
    intro labels
    refine ⟨fun c => ?_, ?_⟩
    · simp [Slot.fill, Item.cells.distance, hn]
    · rw [missing?_of_refers hrefers]
      rfl

def Continues (vocabulary : String → Option Cell) (base : Word) (done : List Item) (a : Assembly)
    (item : Item) : Prop :=
  match item.fault? vocabulary (done.filterMap Item.defines?) with
  | some fault => a.add vocabulary item = .error fault
  | none => ∃ a' slots, a.add vocabulary item = .ok a' ∧
      a'.Represents vocabulary base (done ++ [item]) slots

/-- A label is defined at the address of the next cell, unless it is there already. -/
theorem continues_label (h : a.Represents vocabulary base done slots) (name : String) :
    Continues vocabulary base done a (.directive .label name) := by
  have hknown : name ∈ a.labels ↔ name ∈ done.filterMap Item.defines? := by
    rw [h.labels, mem_labelTable]
  have hfault : (Item.directive .label name).fault? vocabulary (done.filterMap Item.defines?) =
      if name ∈ done.filterMap Item.defines? then some .labelExists else none := rfl
  have hhere : a.here = base.plus (size done) := by rw [h.stands.here, h.size]
  unfold Continues
  rw [hfault]
  by_cases hmem : name ∈ done.filterMap Item.defines?
  · rw [if_pos hmem]
    exact if_pos (hknown.mpr hmem)
  · rw [if_neg hmem]
    have hnew : name ∉ a.labels := fun hm => hmem (hknown.mp hm)
    refine ⟨{ a with labels := a.labels.insert name a.here }, slots, if_neg hnew, ?_⟩
    have hext : Extends a.labels (a.labels.insert name a.here) := by
      intro other w hw
      have hne : name ≠ other := by
        rintro rfl
        exact hnew (Std.ExtTreeMap.mem_iff_isSome_getElem?.mpr (by rw [hw]; rfl))
      rw [Std.ExtTreeMap.getElem?_insert]
      simpa [hne] using hw
    refine ⟨⟨h.stands.here, h.stands.size, h.stands.within, h.stands.missing, h.stands.cells⟩,
      ?_, ?_, ?_, ?_⟩
    · rw [labelTable_concat, ← hhere, ← h.labels]
      rfl
    · rw [size_append]
      exact h.size
    · intro labels hlabels
      rw [emit_append]
      have hcells := h.cells labels fun other w hw => hlabels other w (hext other w hw)
      simpa [emit, Item.cells] using hcells
    · intro labels hlabels
      rw [unresolved, List.filterMap_append]
      have hmissing := h.missing labels fun other w hw => hlabels other w (hext other w hw)
      simpa [Item.missing?, Item.refers?, unresolved] using hmissing

theorem filter_unknown (name : String) :
    ((some name).filter fun name => (vocabulary name).isNone).map Fault.unknownWord =
      if (vocabulary name).isNone then some (.unknownWord name) else none := by
  rw [Option.filter_some]
  split <;> rfl

/-- An item of one cell that is there at once. -/
theorem continues_single_cell (h : a.Represents vocabulary base done slots) {c : Cell}
    (hfault : ∀ defined, item.fault? vocabulary defined = none) (hdefines : item.defines? = none)
    (hadd : a.add vocabulary item = .ok (a.push c)) (hrefers : item.refers? = none)
    (hsize : item.size = 1) (hcells : ∀ labels b, item.cells vocabulary labels b = [c]) :
    Continues vocabulary base done a item := by
  unfold Continues
  rw [hfault]
  refine ⟨_, _, hadd, h.append hdefines (adds_push a c) hsize.symm ?_ ?_⟩
  · intro labels _ b
    rw [hcells]
    rfl
  · intro labels _
    rw [Item.missing?, hrefers]
    rfl

/-- A `.C` adds a cell with its operand. -/
theorem continues_cell (h : a.Represents vocabulary base done slots) (x : String) :
    Continues vocabulary base done a (.directive .cell x) := by
  obtain ⟨s, hadds, hslot⟩ := adds_operand a x
  refine ⟨a.operand x, _, rfl, h.append rfl hadds rfl ?_ ?_⟩
  · intro labels hext b
    simp only [fill, Item.cells, (hslot labels hext).1]
  · intro labels hext
    rw [← (hslot labels hext).2]
    cases hm : s.missing? labels <;> simp [hm]

/-- A word and its operand. -/
theorem continues_pair (h : a.Represents vocabulary base done slots) (item : Item) (name : String)
    (operand : Assembly → Assembly)
    (hfault : ∀ defined, item.fault? vocabulary defined =
      if (vocabulary name).isNone then some (.unknownWord name) else none)
    (hdefines : item.defines? = none) (hsize : item.size = 2)
    (hadd : a.add vocabulary item = (a.word vocabulary name).map operand)
    (hoperand : ∀ c, vocabulary name = some c → ∃ s, Adds [s] (a.push c) (operand (a.push c)) ∧
      ∀ labels, Extends a.labels labels →
        (∀ b, item.cells vocabulary labels b = [c, s.fill labels (b + 1)]) ∧
          s.missing? labels = item.missing? labels) :
    Continues vocabulary base done a item := by
  unfold Continues
  rw [hfault, hadd]
  cases hc : vocabulary name with
  | none =>
    simp only [Option.isNone_none, ↓reduceIte, Assembly.word, hc]
    rfl
  | some c =>
    obtain ⟨s, hadds, hslot⟩ := hoperand c hc
    simp only [Option.isNone_some, Bool.false_eq_true, ↓reduceIte, Assembly.word, hc]
    refine ⟨operand (a.push c), _, rfl,
      h.append hdefines ((adds_push a c).trans hadds) hsize.symm ?_ ?_⟩
    · intro labels hext b
      rw [(hslot labels hext).1]
      rfl
    · intro labels hext
      rw [← (hslot labels hext).2]
      have hfirst : (Slot.filled c).missing? labels = none := rfl
      cases hm : s.missing? labels <;> simp [hm, hfirst]

/-- LIT adds its word and a cell with the operand. -/
theorem continues_lit (h : a.Represents vocabulary base done slots) (x : String) :
    Continues vocabulary base done a (.directive .lit x) := by
  apply continues_pair h (.directive .lit x) Builtin.lit.name (·.operand x) (fun _ => filter_unknown _) rfl
    rfl rfl
  intro c hc
  obtain ⟨s, hadds, hslot⟩ := adds_operand (a.push c) x
  refine ⟨s, hadds, fun labels hext => ⟨fun b => ?_, (hslot labels hext).2⟩⟩
  simp only [Item.cells, Item.cells.word, hc, Option.getD_some, (hslot labels hext).1]

/-- A branching word adds its word and a cell with the distance. -/
theorem continues_branch (h : a.Represents vocabulary base done slots) (b : Builtin) (x : String) :
    Continues vocabulary base done a (.directive (.branch b) x) := by
  apply continues_pair h (.directive (.branch b) x) b.name (·.target x) (fun _ => filter_unknown _) rfl rfl
    rfl
  intro c hc
  obtain ⟨s, hadds, hslot⟩ := adds_target (a.push c) b x
  refine ⟨s, hadds, fun labels _ => ⟨fun d => ?_, (hslot labels).2⟩⟩
  simp only [Item.cells, Item.cells.word, hc, Option.getD_some, (hslot labels).1]

/-- A token by itself is an integer or a word of the vocabulary. -/
theorem continues_single (h : a.Represents vocabulary base done slots) (token : String) :
    Continues vocabulary base done a (.single token) := by
  cases hn : integer? token with
  | some n =>
    have hfault (defined : List String) : (Item.single token).fault? vocabulary defined = none := by
      simp [Item.fault?, Item.word?, hn]
    have hadd : a.add vocabulary (.single token) = .ok (a.push (.int n)) := by
      unfold integer? at hn
      simp only [add, Assembly.single, hn]
    apply continues_single_cell h hfault rfl hadd rfl rfl
    intro labels b
    simp [Item.cells, hn]
  | none =>
    have hfault (defined : List String) : (Item.single token).fault? vocabulary defined =
        if (vocabulary token).isNone then some (.unknownWord token) else none := by
      simp only [Item.fault?, Item.word?, hn]
      exact filter_unknown token
    have hadd : a.add vocabulary (.single token) = a.word vocabulary token := by
      unfold integer? at hn
      simp only [add, Assembly.single, hn]
    unfold Continues
    rw [hfault, hadd, Assembly.word]
    cases hc : vocabulary token with
    | none => rfl
    | some c =>
      refine ⟨a.push c, _, rfl, h.append rfl (adds_push a c) rfl ?_ ?_⟩
      · intro labels _ b
        simp [fill, Slot.fill, Item.cells, Item.cells.word, hn, hc]
      · intro labels _
        rfl

theorem Represents.continues (h : a.Represents vocabulary base done slots) (item : Item) :
    Continues vocabulary base done a item := by
  cases item with
  | directive d x =>
    cases d with
    | label => exact continues_label h x
    | cell => exact continues_cell h x
    | text => exact continues_single_cell h (fun _ => rfl) rfl rfl rfl rfl fun _ _ => rfl
    | lit => exact continues_lit h x
    | branch b => exact continues_branch h b x
  | single token => exact continues_single h token
  | incomplete => rfl

/-- The items are added up to the first one with which something is wrong. -/
theorem Represents.foldlM (h : a.Represents vocabulary base done slots) (rest : List (Nat × Item)) :
    match firstError vocabulary (done.filterMap Item.defines?) rest with
    | some e => rest.foldlM (addAt vocabulary) a = .error e
    | none => ∃ a' slots, rest.foldlM (addAt vocabulary) a = .ok a' ∧
        a'.Represents vocabulary base (done ++ rest.map Prod.snd) slots := by
  -- on the items that are still to be added; those added before them are generalized
  induction rest generalizing a done slots with
  | nil => exact ⟨a, slots, rfl, (List.append_nil done).symm ▸ h⟩
  | cons p rest ih =>
    obtain ⟨line, item⟩ := p
    have hstep := h.continues item
    unfold Continues at hstep
    rw [firstError]
    simp only [List.foldlM_cons, addAt, List.map_cons]
    cases hf : item.fault? vocabulary (done.filterMap Item.defines?) with
    | some fault =>
      rw [hf] at hstep
      dsimp only
      rw [hstep]
      rfl
    | none =>
      rw [hf] at hstep
      obtain ⟨a', slots', hadd, hrep⟩ := hstep
      have hdefined : (done ++ [item]).filterMap Item.defines? =
          done.filterMap Item.defines? ++ item.defines?.toList := by
        rw [List.filterMap_append]
        cases hd : item.defines? <;> simp [hd]
      have hrest := ih hrep
      rw [hdefined, List.append_assoc, List.singleton_append] at hrest
      dsimp only
      rw [hadd]
      exact hrest

/-- The last table of labels extends itself, so the gaps are filled in as the second pass does. -/
theorem Represents.finish (h : a.Represents vocabulary base done slots) :
    a.finish base = secondPass vocabulary base done := by
  have hself : Extends a.labels a.labels := fun _ _ hw => hw
  have hfinish := h.stands.finish
  rw [h.missing _ hself, h.cells _ hself, h.labels] at hfinish
  exact hfinish

end Assembly

theorem vocabulary_getD (dictionary : Option Dictionary) :
    vocabulary (dictionary.getD ∅) = wordCell dictionary := by
  funext name
  unfold vocabulary wordCell
  cases dictionary with
  | none => rfl
  | some d =>
    simp only [Option.getD_some, Option.bind_some]
    cases d.find? name <;> rfl

/-- The lines and tokens of a listing, and then its items, are the same ones in both readings. -/
theorem assemble_eq_items (source : String) (dictionary : Dictionary) (base : Word) :
    assemble source dictionary base =
      ((items source).foldlM (Assembly.addAt (vocabulary dictionary)) { here := base }).bind
        (Assembly.finish base) := by
  have hlines : (Text.lines source.toList).map tokens = (source.toList.splitOn '\n').map fields := by
    rw [lines_eq_splitOn]
    exact List.map_congr_left fun line _ => tokens_eq_fields line
  unfold assemble items
  dsimp only
  rw [hlines, Assembly.lines_eq]

section

variable {source : String} {dictionary : Dictionary}

/-- The first item with which something is wrong decides. -/
theorem assemble_of_firstError {e : Error}
    (h : firstError (vocabulary dictionary) [] (items source) = some e) (base : Word) :
    assemble source dictionary base = .error e := by
  have hrun := (Assembly.represents_nil (vocabulary dictionary) base).foldlM (items source)
  rw [List.filterMap_nil, h] at hrun
  rw [assemble_eq_items, hrun]
  rfl

/-- When nothing is wrong with any item, the cells are those of the second pass. -/
theorem assemble_of_sound (h : firstError (vocabulary dictionary) [] (items source) = none) (base : Word) :
    assemble source dictionary base =
      secondPass (vocabulary dictionary) base ((items source).map Prod.snd) := by
  have hrun := (Assembly.represents_nil (vocabulary dictionary) base).foldlM (items source)
  rw [List.filterMap_nil, h, List.nil_append] at hrun
  obtain ⟨a, slots, ha, hrep⟩ := hrun
  rw [assemble_eq_items, ha]
  exact hrep.finish

/-- What can be said of a listing that has been assembled. -/
theorem assemble_ok {base : Word} {p : Program} (h : assemble source dictionary base = .ok p) :
    p.base = base ∧ p.labels = labelTable base ((items source).map Prod.snd) ∧
      p.cells = emit (vocabulary dictionary) p.labels base ((items source).map Prod.snd) ∧
      unresolved p.labels ((items source).map Prod.snd) = [] := by
  cases he : firstError (vocabulary dictionary) [] (items source) with
  | some e =>
    rw [assemble_of_firstError he base] at h
    cases h
  | none =>
    rw [assemble_of_sound he base, secondPass] at h
    split at h
    · next hnone =>
      cases h
      exact ⟨rfl, rfl, rfl, hnone⟩
    · cases h

end

/-- A listing is assembled in one pass as in two. -/
theorem assemble_eq_twoPass (source : String) (dictionary : Option Dictionary) (base : Word) :
    assemble source (dictionary.getD ∅) base = twoPass source dictionary base := by
  unfold twoPass
  rw [← vocabulary_getD]
  cases he : firstError (vocabulary (dictionary.getD ∅)) [] (items source) with
  | some e => exact assemble_of_firstError he base
  | none => exact assemble_of_sound he base

/-- The address of a label that comes later, and the distance to one that came before. -/
example : (assemble ".L loop LIT 7 .C end\nBRANCH loop\n.L end EXIT" ∅ 100).map Program.cells =
    .ok [.builtin .lit, .int 7, .addr 105, .builtin .branch, .int (-4), .builtin .exit] := by
  cbv

/-- Labels that never come. -/
example : assemble ".C end\nBRANCH loop" ∅ 100 = .error (.unresolved ["end", "loop"]) := by
  cbv

end ForthMachine.Listing
