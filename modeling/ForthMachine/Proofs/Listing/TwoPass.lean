import ForthMachine.Listing
import ForthMachine.Proofs.Memory.Block

namespace ForthMachine.Listing

inductive Item where
  | directive (d : Directive) (x : String)
  | single (token : String)
  -- a directive at the end of a line, without its operand
  | incomplete
  deriving DecidableEq, Repr

def integer? (token : String) : Option Word := Numeral.prefixed? token.toList

namespace Item

-- the number of cells, which labels have no influence on
def size : Item → Nat
  | directive .label _ | incomplete => 0
  | directive .cell _ | directive .text _ | single _ => 1
  | directive .lit _ | directive (.branch _) _ => 2

def defines? : Item → Option String
  | directive .label name => some name
  | _ => none

/-- The label to which an item refers: an operand that is no integer. -/
def refers? : Item → Option String
  | directive .cell x | directive .lit x | directive (.branch _) x =>
    if (integer? x).isSome then none else some x
  | _ => none

def missing? (labels : Std.ExtTreeMap String Word) (item : Item) : Option String :=
  item.refers?.filter (· ∉ labels)

def word? : Item → Option String
  | directive .lit _ => some Builtin.lit.name
  | directive (.branch b) _ => some b.name
  | single token => if (integer? token).isSome then none else some token
  | _ => none

def fault? (vocabulary : String → Option Cell) (defined : List String) : Item → Option Fault
  | incomplete => some .incomplete
  | directive .label name => if name ∈ defined then some .labelExists else none
  | item => (item.word?.filter fun name => (vocabulary name).isNone).map .unknownWord

def cells (vocabulary : String → Option Cell) (labels : Std.ExtTreeMap String Word) (a : Word) :
    Item → List Cell
  | directive .label _ | incomplete => []
  | directive .cell x => [address x]
  | directive .text x => [.text x]
  | directive .lit x => [word Builtin.lit.name, address x]
  | directive (.branch b) x => [word b.name, distance x]
  | single token => [((integer? token).map Cell.int).getD (word token)]
where
  word (name : String) : Cell := (vocabulary name).getD .nil
  address (x : String) : Cell := ((integer? x).map Cell.int).getD (.addr (labels.getD x 0))
  -- counted from the operand, which comes after the word
  distance (x : String) : Cell := ((integer? x).map Cell.int).getD (.int (labels.getD x 0 - (a + 1)))

end Item

def group : List String → List Item
  | [] => []
  | token :: rest =>
    match Directive.ofToken? token, rest with
    | none, rest => .single token :: group rest
    | some _, [] => [.incomplete]
    | some d, x :: rest => .directive d x :: group rest

def fields (line : List Char) : List String :=
  (((line.takeWhile (· ≠ '\\')).splitOnP Text.isSpace).filter (· ≠ [])).map String.ofList

def numbered (n : Nat) (lines : List (List String)) : List (Nat × Item) :=
  (lines.zipIdx n).flatMap fun (tokens, n) => (group tokens).map (n, ·)

def items (source : String) : List (Nat × Item) := numbered 1 ((source.toList.splitOn '\n').map fields)

def size : List Item → Nat
  | [] => 0
  | item :: rest => item.size + size rest

def firstError (vocabulary : String → Option Cell) : List String → List (Nat × Item) → Option Error
  | _, [] => none
  | defined, (line, item) :: rest =>
    match item.fault? vocabulary defined with
    | some fault => some (.faulty line fault)
    | none => firstError vocabulary (defined ++ item.defines?.toList) rest

def addresses (base : Word) : Nat → List Item → List (String × Word)
  | _, [] => []
  | n, item :: rest => item.defines?.toList.map (·, base.plus n) ++ addresses base (n + item.size) rest

def labelTable (base : Word) (items : List Item) : Std.ExtTreeMap String Word :=
  .ofList (addresses base 0 items)

def unresolved (labels : Std.ExtTreeMap String Word) (items : List Item) : List String :=
  items.filterMap (Item.missing? labels)

def emit (vocabulary : String → Option Cell) (labels : Std.ExtTreeMap String Word) (a : Word) :
    List Item → List Cell
  | [] => []
  | item :: rest => item.cells vocabulary labels a ++ emit vocabulary labels (a.plus item.size) rest

def secondPass (vocabulary : String → Option Cell) (base : Word) (items : List Item) :
    Except Error Program :=
  let labels := labelTable base items
  match unresolved labels items with
  | [] => .ok { base, cells := emit vocabulary labels base items, labels }
  | names => .error (.unresolved names)

def wordCell (dictionary : Option Dictionary) (name : String) : Option Cell :=
  ((dictionary.bind (·.find? name)).map fun e => Cell.ref e.code).or
    ((Builtin.ofName? name).map Cell.builtin)

def twoPass (source : String) (dictionary : Option Dictionary) (base : Word) : Except Error Program :=
  match firstError (wordCell dictionary) [] (items source) with
  | some e => .error e
  | none => secondPass (wordCell dictionary) base ((items source).map Prod.snd)

variable {vocabulary : String → Option Cell} {labels : Std.ExtTreeMap String Word}

theorem size_append (xs ys : List Item) : size (xs ++ ys) = size xs + size ys := by
  induction xs with
  | nil => exact (Nat.zero_add _).symm
  | cons item xs ih => rw [List.cons_append, size, size, ih, Nat.add_assoc]

/-- Labels of items that come later count the cells before them. -/
theorem addresses_append (base : Word) (n : Nat) (xs ys : List Item) :
    addresses base n (xs ++ ys) = addresses base n xs ++ addresses base (n + size xs) ys := by
  induction xs generalizing n with
  | nil => rfl
  | cons item xs ih =>
    have hsize : n + item.size + size xs = n + size (item :: xs) := Nat.add_assoc _ _ _
    rw [List.cons_append, addresses, addresses, ih, hsize, List.append_assoc]

theorem keys_addresses (base : Word) (n : Nat) (items : List Item) :
    (addresses base n items).map Prod.fst = items.filterMap Item.defines? := by
  induction items generalizing n with
  | nil => rfl
  | cons item items ih =>
    rw [addresses, List.map_append, ih]
    cases hd : item.defines? <;> simp [hd]

/-- The first pass finds the labels that items define. -/
theorem mem_labelTable (base : Word) (items : List Item) (name : String) :
    name ∈ labelTable base items ↔ name ∈ items.filterMap Item.defines? := by
  rw [labelTable, Std.ExtTreeMap.mem_ofList, keys_addresses, List.contains_iff_mem]

/-- The first pass, one item further on. -/
theorem labelTable_concat (base : Word) (items : List Item) (item : Item) :
    labelTable base (items ++ [item]) =
      match item.defines? with
      | some name => (labelTable base items).insert name (base.plus (size items))
      | none => labelTable base items := by
  have happend : labelTable base (items ++ [item]) =
      (labelTable base items).insertMany (item.defines?.toList.map (·, base.plus (size items))) := by
    simp only [labelTable, addresses_append, Std.ExtTreeMap.ofList_eq_insertMany_empty,
      Std.ExtTreeMap.insertMany_append, addresses, List.append_nil, Nat.zero_add]
  rw [happend]
  cases item.defines? <;> simp

/-- Items that come later lie behind the cells before them. -/
theorem emit_append (a : Word) (xs ys : List Item) :
    emit vocabulary labels a (xs ++ ys) =
      emit vocabulary labels a xs ++ emit vocabulary labels (a.plus (size xs)) ys := by
  induction xs generalizing a with
  | nil => simp [emit, size]
  | cons item xs ih =>
    have hsize : (a.plus item.size).plus (size xs) = a.plus (size (item :: xs)) := by
      rw [Word.plus_plus, size]
    rw [List.cons_append, emit, emit, ih, hsize, List.append_assoc]

theorem length_cells (a : Word) (item : Item) :
    (item.cells vocabulary labels a).length = item.size := by
  rcases item with ⟨_ | _ | _ | _ | _, x⟩ | token | _ <;> rfl

/-- Each item has as many cells as the first pass has counted. -/
theorem length_emit (a : Word) (items : List Item) :
    (emit vocabulary labels a items).length = size items := by
  induction items generalizing a with
  | nil => rfl
  | cons item items ih =>
    rw [emit, List.length_append, ih, length_cells, size]

end ForthMachine.Listing
