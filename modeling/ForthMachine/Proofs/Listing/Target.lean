import ForthMachine.Proofs.Listing.OnePass
import ForthMachine.Proofs.Machine.Thread

namespace ForthMachine

namespace Console

def Traced (before after : Console) : Prop := ∃ pieces : List String, after = pieces.foldl note before

theorem Traced.note {before after : Console} (h : Traced before after) (piece : String) :
    Traced before (after.note piece) := by
  obtain ⟨pieces, rfl⟩ := h
  exact ⟨pieces ++ [piece], by rw [List.foldl_append]; rfl⟩

theorem Traced.eq_of_not_tracing {before after : Console} (h : Traced before after)
    (hoff : before.tracing = false) : after = before := by
  obtain ⟨pieces, rfl⟩ := h
  have hnote (piece : String) : before.note piece = before := by simp [Console.note, hoff]
  induction pieces with
  | nil => rfl
  | cons piece pieces ih => rw [List.foldl_cons, hnote, ih]

end Console

namespace Machine

/-- A step succeeds and gives a state; on the console it leaves no more than trace text. -/
def StepsTo (m : Machine) (st : State) : Prop :=
  ∃ console, step m = .ok () { state := st, console } ∧ m.console.Traced console

/-- While tracing is off, the step changes the state alone. -/
theorem StepsTo.eq_of_not_tracing {m : Machine} {st : State} (h : m.StepsTo st)
    (hoff : m.console.tracing = false) : step m = .ok () { m with state := st } := by
  obtain ⟨console, hstep, htraced⟩ := h
  rw [hstep, htraced.eq_of_not_tracing hoff]

theorem traced_noteStack {c : Console} {m : Machine} (h : c.Traced m.console) :
    c.Traced m.noteStack.console := by
  have hfold (cells : List Cell) (d : Console) (hd : c.Traced d) :
      c.Traced (cells.foldl (fun d cell => d.note (" " ++ cell.render)) d) := by
    induction cells generalizing d with
    | nil => exact hd
    | cons cell cells ih => exact ih _ (hd.note _)
  exact (hfold m.state.stack m.console h).note "\n"

/-- A cell that holds a word with next. -/
theorem stepsTo_withNext {m : Machine} {b : Builtin} {x : Action State Unit} {st : State}
    (hc : m.state.memory[m.state.ip]? = some (.builtin b))
    (hb : b.perform m.state.ip = Builtin.perform.onState x) (hn : b.contract = .withNext)
    (hx : x { m.state with nip := m.state.ip + 1 } = .ok () st) : m.StepsTo st := by
  have hstate : (m.begin (.builtin b)).state = { m.state with nip := m.state.ip + 1 } := rfl
  have hperform : (Primitive.builtin b).perform m.state.ip (m.begin (.builtin b)) =
      .ok none { m.begin (.builtin b) with state := st } := by
    simp only [Primitive.perform, hn]
    rw [hb, Builtin.perform_onState_apply, hstate, hx]
  have hbegun : m.console.Traced (m.begin (.builtin b)).console :=
    Console.Traced.note ⟨[], rfl⟩ _
  refine ⟨_, ?_, traced_noteStack (m := { m.begin (.builtin b) with state := st }) hbegun⟩
  rw [step_eq_of_resolve hc (resolve_prim _ _ _), invoke_of_perform hperform]
  rfl

section Control

variable {m : Machine} {s : State} {target : Word} {c flag : Cell} {rest : Stack Cell}

theorem lit_apply (h : s.memory[s.nip]? = some c) :
    Control.lit s = .ok () { s with
      ip := s.nip.plus 1, nip := s.nip.plus 2, stack := c :: s.stack } := by
  simp [Control.lit, State.fetch_of_getElem? h, Word.add_one]

theorem branch_apply (h : s.memory[s.nip]? = some (.int (target - s.nip))) :
    Control.branch s = .ok () { s with ip := target, nip := target + 1 } := by
  -- the distance wraps around in one sum and back in the other
  have hback : s.nip + (target - s.nip) = target := by grind
  simp [Control.branch, State.fetch_of_getElem? h, Cell.address?, hback]

theorem zeroBranch_apply (hs : s.stack = flag :: rest) :
    Control.zeroBranch s =
      if flag.isFalse then Control.branch { s with stack := rest }
      else .ok () { s with ip := s.nip.plus 1, nip := s.nip.plus 2, stack := rest } := by
  have hpop : State.onStack Operand.cell s = .ok flag { s with stack := rest } := by
    rw [State.onStack_apply, hs]
    rfl
  rw [Control.zeroBranch, Action.bind_apply, hpop]
  by_cases hf : flag.isFalse = true
  · simp only [hf, ↓reduceIte]
  · simp [hf, Word.add_one]

/-- LIT puts the cell after it on the stack and goes on behind that. -/
theorem stepsTo_lit (h : m.state.memory.Holds m.state.ip [.builtin .lit, c]) :
    m.StepsTo { m.state with
      ip := m.state.ip.plus 2, nip := m.state.ip.plus 3, stack := c :: m.state.stack } := by
  obtain ⟨hword, hoperand⟩ := Memory.holds_cons.mp h
  rw [Memory.holds_singleton] at hoperand
  have hlit := lit_apply (s := { m.state with nip := m.state.ip + 1 }) hoperand
  rw [Word.add_one, Word.plus_plus, Word.plus_plus] at hlit
  exact stepsTo_withNext hword rfl rfl hlit

/-- A distance that was counted from the operand cell leads to its target. -/
theorem stepsTo_branch
    (h : m.state.memory.Holds m.state.ip [.builtin .branch, .int (target - (m.state.ip + 1))]) :
    m.StepsTo { m.state with ip := target, nip := target + 1 } := by
  obtain ⟨hword, hoperand⟩ := Memory.holds_cons.mp h
  rw [Memory.holds_singleton] at hoperand
  exact stepsTo_withNext hword rfl rfl (branch_apply hoperand)

/-- On a false flag the branch is taken. -/
theorem stepsTo_zeroBranch_of_isFalse
    (h : m.state.memory.Holds m.state.ip [.builtin .zeroBranch, .int (target - (m.state.ip + 1))])
    (hs : m.state.stack = flag :: rest) (hf : flag.isFalse = true) :
    m.StepsTo { m.state with ip := target, nip := target + 1, stack := rest } := by
  obtain ⟨hword, hoperand⟩ := Memory.holds_cons.mp h
  rw [Memory.holds_singleton] at hoperand
  have hx := zeroBranch_apply (s := { m.state with nip := m.state.ip + 1 }) hs
  rw [if_pos hf, branch_apply hoperand] at hx
  exact stepsTo_withNext hword rfl rfl hx

/-- On a true flag the operand is passed over. -/
theorem stepsTo_zeroBranch_of_not_isFalse (h : m.state.memory[m.state.ip]? = some (.builtin .zeroBranch))
    (hs : m.state.stack = flag :: rest) (hf : flag.isFalse = false) :
    m.StepsTo { m.state with ip := m.state.ip.plus 2, nip := m.state.ip.plus 3, stack := rest } := by
  have hx := zeroBranch_apply (s := { m.state with nip := m.state.ip + 1 }) hs
  rw [if_neg (by simp [hf]), Word.add_one, Word.plus_plus, Word.plus_plus] at hx
  exact stepsTo_withNext h rfl rfl hx

end Control

end Machine

namespace Listing

open Assembly

section Length

/-- Every field has a character of its own; those of the current one have been read already. -/
theorem length_fieldsAux_le (run cs : List Char) :
    (Text.fieldsAux run cs).length ≤ run.length + cs.length := by
  induction cs generalizing run with
  | nil => cases run <;> simp [Text.fieldsAux]
  | cons c cs ih =>
    have hblank := ih []
    have hrun := ih (c :: run)
    rw [List.length_nil] at hblank
    rw [List.length_cons] at hrun
    rw [Text.fieldsAux, List.length_cons]
    split
    · cases run with
      | nil => simp; omega
      | cons => simp; omega
    · omega

theorem length_tokens_le (line : List Char) : (tokens line).length ≤ line.length := by
  let code := line.takeWhile (· ≠ '\\')
  calc (tokens line).length = (Text.fieldsAux [] code).length := by
        rw [tokens, List.length_map, Text.fields]
    _ ≤ code.length := by simpa using length_fieldsAux_le [] code
    _ ≤ line.length := (List.takeWhile_sublist _).length_le

theorem flatten_lines_sublist (cs : List Char) : (Text.lines cs).flatten.Sublist cs := by
  induction cs with
  | nil => exact .slnil
  | cons c cs ih =>
    rw [Text.lines]
    split
    · exact ih.cons c
    · cases hl : Text.lines cs with
      | nil => exact (List.nil_sublist cs).cons_cons c
      | cons line more =>
        rw [hl] at ih
        exact ih.cons_cons c

/-- The items of a line have no more cells than the line has tokens. -/
theorem size_group_le (tokens : List String) : size (group tokens) ≤ tokens.length := by
  fun_induction group tokens with
  | case1 => simp [size]
  | case2 token rest hd ih => simp [size, Item.size] at ih ⊢; omega
  | case3 token d hd => simp [size, Item.size]
  | case4 token d x rest hd ih =>
    have hsize : (Item.directive d x).size ≤ 2 := by cases d <;> simp [Item.size]
    simp [size] at ih ⊢
    omega

theorem snd_numbered (n : Nat) (lines : List (List String)) :
    (numbered n lines).map Prod.snd = lines.flatMap group := by
  induction lines generalizing n with
  | nil => rfl
  | cons tokens rest ih =>
    have hgroup : ((group tokens).map fun item => (n, item)).map Prod.snd = group tokens := by
      simp [Function.comp_def]
    have hrest := ih (n + 1)
    unfold numbered at hrest ⊢
    rw [List.zipIdx_cons, List.flatMap_cons, List.map_append, hgroup, hrest, List.flatMap_cons]

/-- A listing has at most as many cells as characters. -/
theorem size_items_le (source : String) : size ((items source).map Prod.snd) ≤ source.length := by
  have hlines (lines : List (List Char)) :
      size ((lines.map fields).flatMap group) ≤ lines.flatten.length := by
    induction lines with
    | nil => simp [size]
    | cons line lines ih =>
      have hline : size (group (fields line)) ≤ line.length := by
        calc size (group (fields line)) ≤ (fields line).length := size_group_le _
          _ = (tokens line).length := by rw [tokens_eq_fields]
          _ ≤ line.length := length_tokens_le line
      rw [List.map_cons, List.flatMap_cons, size_append, List.flatten_cons, List.length_append]
      exact Nat.add_le_add hline ih
  let lines := source.toList.splitOn '\n'
  calc size ((items source).map Prod.snd) = size ((lines.map fields).flatMap group) := by
        rw [items, snd_numbered]
    _ ≤ lines.flatten.length := hlines lines
    _ = (Text.lines source.toList).flatten.length := by rw [lines_eq_splitOn]
    _ ≤ source.length := (flatten_lines_sublist source.toList).length_le

end Length

theorem vocabulary_builtin {b : Builtin} (h : Builtin.ofName? b.name = some b) :
    vocabulary ∅ b.name = some (.builtin b) := by
  have hfind : (∅ : Dictionary).find? b.name = none := rfl
  rw [vocabulary, hfind, h]
  rfl

section Loaded

variable {source : String} {base : Word} {p : Program} {before after : List Item} {item : Item}

/-- The cells of an item lie where the items before it end. -/
theorem holds_of_assemble {dictionary : Dictionary} (hp : assemble source dictionary base = .ok p)
    (hfit : source.length ≤ Word.count)
    (hitems : (items source).map Prod.snd = before ++ item :: after) (M : Memory) :
    (p.load M).Holds (base.plus (size before))
      (item.cells (vocabulary dictionary) p.labels (base.plus (size before))) := by
  obtain ⟨hbase, -, hcells, -⟩ := assemble_ok hp
  -- a program of more cells than there are addresses would write over its own beginning
  have hlength : p.cells.length ≤ Word.count := by
    rw [hcells, length_emit]
    exact Nat.le_trans (size_items_le source) hfit
  have hall : (p.load M).Holds base p.cells := by
    intro i hi
    rw [Program.load, hbase, Memory.getElem?_load_inside M base hlength hi]
  rw [hcells, hitems, emit_append, emit, Memory.holds_append, Memory.holds_append, length_emit] at hall
  exact hall.2.1

/-- In a listing that has been assembled, each label that is referred to has an address. -/
theorem label_of_refers {label : String} {dictionary : Dictionary}
    (hp : assemble source dictionary base = .ok p)
    (hitems : (items source).map Prod.snd = before ++ item :: after) (hrefers : item.refers? = some label) :
    ∃ target, p.labels[label]? = some target := by
  obtain ⟨-, -, -, hresolved⟩ := assemble_ok hp
  have hmem : label ∈ p.labels := by
    apply Classical.byContradiction
    intro hmissing
    have hitem : item.missing? p.labels = some label := by
      rw [missing?_of_refers hrefers, if_neg hmissing]
    rw [unresolved, hitems, List.filterMap_append, List.filterMap_cons, hitem] at hresolved
    simp at hresolved
  exact Option.isSome_iff_exists.mp (Std.ExtTreeMap.mem_iff_isSome_getElem?.mp hmem)

/-- A branch to a label holds the distance from its operand cell. -/
theorem cells_branch {b : Builtin} {label : String} {labels : Std.ExtTreeMap String Word} {target : Word}
    (hb : Builtin.ofName? b.name = some b) (hn : integer? label = none) (hl : labels[label]? = some target)
    (a : Word) : (Item.directive (.branch b) label).cells (vocabulary ∅) labels a =
      [.builtin b, .int (target - (a + 1))] := by
  simp [Item.cells, Item.cells.word, Item.cells.distance, vocabulary_builtin hb, hn,
    Std.ExtTreeMap.getD_eq_getD_getElem?, hl]

theorem cells_lit {label : String} {labels : Std.ExtTreeMap String Word} {target : Word}
    (hn : integer? label = none) (hl : labels[label]? = some target) (a : Word) :
    (Item.directive .lit label).cells (vocabulary ∅) labels a = [.builtin .lit, .addr target] := by
  have hlit : vocabulary ∅ Builtin.lit.name = some (.builtin .lit) := vocabulary_builtin rfl
  simp [Item.cells, Item.cells.word, Item.cells.address, hlit, hn,
    Std.ExtTreeMap.getD_eq_getD_getElem?, hl]

/-- A step at a word with a label as its operand goes by the address of that label: a branch leads there,
a branch on a flag leads there when the flag is false and skips the operand otherwise, and LIT pushes the
address. -/
theorem step_of_label_operand {label : String} {m : Machine} (hp : assemble source ∅ base = .ok p)
    (hfit : source.length ≤ Word.count)
    (hitems : (items source).map Prod.snd = before ++ item :: after) (hrefers : item.refers? = some label)
    {M : Memory} (hmemory : m.state.memory = p.load M) (hip : m.state.ip = base.plus (size before)) :
    ∃ target, p.labels[label]? = some target ∧
      (item = .directive (.branch .branch) label →
        m.StepsTo { m.state with ip := target, nip := target + 1 }) ∧
      (∀ flag rest, item = .directive (.branch .zeroBranch) label → m.state.stack = flag :: rest →
        (flag.isFalse = true → m.StepsTo { m.state with ip := target, nip := target + 1, stack := rest }) ∧
        (flag.isFalse = false → m.StepsTo { m.state with
          ip := m.state.ip.plus 2, nip := m.state.ip.plus 3, stack := rest })) ∧
      (item = .directive .lit label → m.StepsTo { m.state with
        ip := m.state.ip.plus 2, nip := m.state.ip.plus 3, stack := .addr target :: m.state.stack }) := by
  obtain ⟨target, htarget⟩ := label_of_refers hp hitems hrefers
  have hholds := holds_of_assemble hp hfit hitems M
  rw [← hmemory, ← hip] at hholds
  refine ⟨target, htarget, ?_, ?_, ?_⟩
  · rintro rfl
    have hn : integer? label = none := by simpa [Item.refers?] using hrefers
    rw [cells_branch rfl hn htarget] at hholds
    exact Machine.stepsTo_branch hholds
  · rintro flag rest rfl hs
    have hn : integer? label = none := by simpa [Item.refers?] using hrefers
    rw [cells_branch rfl hn htarget] at hholds
    constructor
    · intro hf
      exact Machine.stepsTo_zeroBranch_of_isFalse hholds hs hf
    · intro hf
      exact Machine.stepsTo_zeroBranch_of_not_isFalse (Memory.holds_cons.mp hholds).1 hs hf
  · rintro rfl
    have hn : integer? label = none := by simpa [Item.refers?] using hrefers
    rw [cells_lit hn htarget] at hholds
    exact Machine.stepsTo_lit hholds

end Loaded

def crossing : String := ".L back BRANCH on 0BRANCH back\n.L on EXIT"

/-- Branches over the largest word, forwards and backwards. -/
theorem step_of_label_operand_crossing :
    ∃ p : Program, assemble crossing ∅ (Int64.maxValue - 1) = .ok p ∧
      Machine.step { state := { memory := p.load ∅, ip := Int64.maxValue - 1 } } =
        .ok () { state := { memory := p.load ∅, ip := Int64.minValue + 2, nip := Int64.minValue + 3 } } ∧
      Machine.step { state := { memory := p.load ∅, ip := Int64.minValue, stack := [.nil] } } =
        .ok () { state := { memory := p.load ∅, ip := Int64.maxValue - 1, nip := Int64.maxValue } } := by
  have hlabels : (assemble crossing ∅ (Int64.maxValue - 1)).toOption.map
      (fun p => (p.labels["on"]?, p.labels["back"]?)) =
        some (some (Int64.minValue + 2), some (Int64.maxValue - 1)) := by
    decide +kernel
  have hitems : (items crossing).map Prod.snd = [.directive .label "back"] ++
      .directive (.branch .branch) "on" :: [.directive (.branch .zeroBranch) "back",
        .directive .label "on", .single "EXIT"] := by
    decide +kernel
  have hitems' : (items crossing).map Prod.snd = [.directive .label "back",
      .directive (.branch .branch) "on"] ++ .directive (.branch .zeroBranch) "back" ::
        [.directive .label "on", .single "EXIT"] := hitems
  have hrefers : (Item.directive (.branch .branch) "on").refers? = some "on" ∧
      (Item.directive (.branch .zeroBranch) "back").refers? = some "back" := by
    decide +kernel
  have hip : (Int64.maxValue - 1 : Word) = Word.plus (Int64.maxValue - 1) (size [.directive .label "back"]) ∧
      (Int64.minValue : Word) = Word.plus (Int64.maxValue - 1)
        (size [.directive .label "back", .directive (.branch .branch) "on"]) := by
    decide +kernel
  have hfit : crossing.length ≤ Word.count := by decide +kernel
  cases hp : assemble crossing ∅ (Int64.maxValue - 1) with
  | error e =>
    rw [hp] at hlabels
    cases hlabels
  | ok p =>
    rw [hp] at hlabels
    obtain ⟨hon, hback⟩ := Prod.mk.inj (Option.some.inj hlabels)
    refine ⟨p, rfl, ?_, ?_⟩
    · obtain ⟨target, htarget, hbranch, -⟩ := step_of_label_operand
        (m := { state := { memory := p.load ∅, ip := Int64.maxValue - 1 } }) hp hfit hitems hrefers.1 rfl
        hip.1
      cases hon.symm.trans htarget
      exact (hbranch rfl).eq_of_not_tracing rfl
    · obtain ⟨target, htarget, -, hbranch, -⟩ := step_of_label_operand
        (m := { state := { memory := p.load ∅, ip := Int64.minValue, stack := [.nil] } }) hp hfit hitems'
        hrefers.2 rfl hip.2
      cases hback.symm.trans htarget
      exact ((hbranch .nil [] rfl rfl).1 rfl).eq_of_not_tracing rfl

end Listing

end ForthMachine
