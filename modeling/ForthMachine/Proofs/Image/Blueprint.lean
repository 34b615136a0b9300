import ForthMachine.Proofs.Interpreter.Definition

/-!
The blueprint of an image: what an image consists of, in the order of installation, and where each part
of it lies. A part refers to other parts by name; the layout turns the names into addresses, which are
counted from the base of the image.
-/

namespace ForthMachine

open Memory

def Body.locate (field : String → Word) : Body String String → Body Word Word
  | empty => .empty
  | seq first second => .seq (first.locate field) (second.locate field)
  | literal token => .literal ((Numeral.decimal? token.toList).getD 0)
  | word name => .word (field name)
  | ifThen yes => .ifThen (yes.locate field)
  | ifElse yes no => .ifElse (yes.locate field) (no.locate field)
  | beginUntil body => .beginUntil (body.locate field)
  | beginAgain body => .beginAgain (body.locate field)

def Body.ofWords (names : List String) : Body String String := .ofList (names.map .word)

namespace Blueprint

inductive Item where
  /-- A reference that the definition puts on the stack: `[ ' name ] LITERAL`. -/
  | quote (name : String)
  | body (b : Body String String)
  deriving DecidableEq, Repr

inductive Content where
  | builtin (b : Builtin)
  /-- The outer interpreter. -/
  | loop
  | definition (items : List Item)
  deriving DecidableEq, Repr

structure Part where
  name : String
  immediate : Bool := false
  content : Content
  deriving DecidableEq, Repr

def branches (field : String → Word) : Branches := ⟨field "0BRANCH", field "BRANCH"⟩

namespace Item

def spelling : Item → List String
  | quote name => ["[", "'", name, "]", "LITERAL"]
  | body b => b.spelling

def code (field : String → Word) : Item → List Cell
  | quote name => [.builtin .lit, .ref (field name)]
  | body b => (b.locate field).code (branches field)

end Item

namespace Part

def cells (field : String → Word) (p : Part) : List Cell :=
  match p.content with
  | .builtin b => [.builtin b]
  | .loop => [.builtin .docol, .ref (field "INTERPRET"), .ref (field "BRANCH"), .int (-2)]
  | .definition items => .builtin .docol :: (items.flatMap (Item.code field) ++ [.builtin .exit])

def size (p : Part) : Nat := 3 + (p.cells fun _ => 0).length

def spelling (p : Part) : List String :=
  match p.content with
  | .definition items =>
    ":" :: p.name :: (items.flatMap Item.spelling ++ ";" :: if p.immediate then ["IMMEDIATE"] else [])
  | _ => []

end Part

def ofBuiltin (b : Builtin) : Part := { name := b.name, immediate := b.isImmediate, content := .builtin b }

def quit : Part := { name := "QUIT", content := .loop }

def control (name : String) (items : List Item) : Part :=
  { name, immediate := true, content := .definition items }

def colon (name : String) (body : Body String String) : Part :=
  { name, content := .definition [.body body] }

def controls : List Part := [
  control "IF" [.quote "0BRANCH",
    .body (.seq (.ofWords [",", "HERE", "@"]) (.seq (.literal "0") (.word ",")))],
  control "THEN" [.body (.ofWords ["DUP", "HERE", "@", "SWAP", "-", "SWAP", "!"])],
  control "ELSE" [.quote "BRANCH",
    .body (.seq (.ofWords [",", "HERE", "@"]) (.seq (.literal "0") (.word ","))),
    .body (.ofWords ["SWAP", "DUP", "HERE", "@", "SWAP", "-", "SWAP", "!"])],
  control "BEGIN" [.body (.ofWords ["HERE", "@"])],
  control "UNTIL" [.quote "0BRANCH", .body (.ofWords [",", "HERE", "@", "-", ","])],
  control "AGAIN" [.quote "BRANCH", .body (.ofWords [",", "HERE", "@", "-", ","])]]

def colons : List (String × Body String String) := [
  ("NIP", .ofWords ["SWAP", "DROP"]),
  ("TUCK", .ofWords ["SWAP", "OVER"]),
  ("2DUP", .ofWords ["OVER", "OVER"]),
  ("2DROP", .ofWords ["DROP", "DROP"]),
  ("?DUP", .seq (.word "DUP") (.ifThen (.word "DUP"))),
  ("1+", .seq (.literal "1") (.word "+")),
  ("1-", .seq (.literal "1") (.word "-")),
  ("/", .ofWords ["/MOD", "NIP"]),
  ("MOD", .ofWords ["/MOD", "DROP"]),
  (">", .ofWords ["SWAP", "<"]),
  ("<>", .ofWords ["=", "0="]),
  ("0<", .seq (.literal "0") (.word "<")),
  ("ABS", .seq (.ofWords ["DUP", "0<"]) (.ifThen (.word "NEGATE"))),
  ("NOT", .word "0="),
  ("BL", .literal "32"),
  ("SPACE", .ofWords ["BL", "EMIT"])]

def core : List Part := controls ++ colons.map fun (name, body) => colon name body

def parts : List Part := Builtin.all.map ofBuiltin ++ quit :: core

set_option maxRecDepth 20000 in
/-- The source text of an image spells its parts. The characters of the text are given as a list,
because a text itself is slow to take apart. -/
theorem core_spells : ∃ cs, Image.core = String.ofList cs ∧
    Source.words cs = core.flatMap Part.spelling :=
  ⟨_, rfl, by decide +kernel⟩

/-- The core text spells the parts that are defined in source text. -/
theorem words_core : Source.words Image.core.toList = core.flatMap Part.spelling := by
  obtain ⟨cs, hcs, hwords⟩ := core_spells
  rw [hcs, String.toList_ofList, hwords]

def size : List Part → Nat
  | [] => 0
  | p :: ps => p.size + size ps

@[simp] theorem size_nil : size [] = 0 := rfl

@[simp] theorem size_cons (p : Part) (ps : List Part) : size (p :: ps) = p.size + size ps := rfl

@[simp] theorem size_append (ps qs : List Part) : size (ps ++ qs) = size ps + size qs := by
  induction ps with
  | nil => simp
  | cons p ps ih => rw [List.cons_append, size_cons, size_cons, ih, Nat.add_assoc]

def offset (name : String) : List Part → Nat
  | [] => 0
  | p :: ps => if p.name = name then 3 else p.size + offset name ps

@[irreducible] def field (base : Word) (name : String) : Word := base.plus (offset name parts)

/-- An image under construction: what is there already, and where the next part goes. -/
structure Placement where
  memory : Memory
  dictionary : Dictionary
  /-- The number of cells placed. -/
  used : Nat
  /-- The link to the newest header. -/
  link : Cell

def entry (base : Word) (k : Nat) (p : Part) : Entry :=
  { name := p.name, code := base.plus (k + 3), flags := { immediate := p.immediate } }

def add (base : Word) (q : Placement) (p : Part) : Placement where
  memory := q.memory.enter (base.plus q.used) q.link p.name (p.cells (field base))
  dictionary := q.dictionary.insert (entry base q.used p)
  used := q.used + p.size
  link := .addr (base.plus q.used)

theorem used_add (base : Word) (q : Placement) (p : Part) :
    (add base q p).used = q.used + p.size := rfl

def start (base : Word) : Placement where
  memory := (Std.ExtTreeMap.insert (Std.ExtTreeMap.insert (Std.ExtTreeMap.insert ∅ hereAddress
    (.addr base)) latestAddress .nil) stateAddress (.int 0))
  dictionary := ∅
  used := 0
  link := .nil

@[irreducible] def placed (base : Word) (ps : List Part) : Placement := ps.foldl (add base) (start base)

/-- A part is placed after those before it, and before those behind it. -/
theorem placed_split (base : Word) (ps qs : List Part) (p : Part) :
    placed base (ps ++ p :: qs) = qs.foldl (add base) (add base (placed base ps) p) := by
  rw [placed, placed, List.foldl_append, List.foldl_cons]

theorem placed_concat (base : Word) (ps : List Part) (p : Part) :
    placed base (ps ++ [p]) = add base (placed base ps) p :=
  placed_split base ps [] p

section Sizes

variable {field : String → Word}

/-- The length of the code does not depend on where the words lie. -/
theorem length_code_locate (f g : String → Word) (x y : Branches) (b : Body String String) :
    ((b.locate f).code x).length = ((b.locate g).code y).length := by
  induction b with
  | empty => rfl
  | seq first second ihf ihs => simp [Body.locate, Body.code, ihf, ihs]
  | literal token => rfl
  | word name => rfl
  | ifThen yes ih => simp [Body.locate, ih]
  | ifElse yes no ihy ihn => simp [Body.locate, ihy, ihn]
  | beginUntil body ih => simp [Body.locate, ih]
  | beginAgain body ih => simp [Body.locate, ih]

theorem length_flatMap_code (f g : String → Word) (items : List Item) :
    (items.flatMap (Item.code f)).length = (items.flatMap (Item.code g)).length := by
  induction items with
  | nil => rfl
  | cons item items ih =>
    cases item with
    | quote name => simp [Item.code, ih]
    | body b =>
      simp only [List.flatMap_cons, List.length_append, ih, Item.code]
      rw [length_code_locate f g]

/-- The size of a part does not depend on where the other parts lie. -/
theorem size_eq (f : String → Word) (p : Part) : p.size = 3 + (p.cells f).length := by
  unfold Part.size Part.cells
  cases p.content with
  | builtin b => rfl
  | loop => rfl
  | definition items =>
    simp only [List.length_cons, List.length_append]
    rw [length_flatMap_code f]

end Sizes

/-- The code field comes after the parts in front and three cells of header. -/
theorem offset_of_split {as bs : List Part} {p : Part} (h : p.name ∉ as.map Part.name) :
    offset p.name (as ++ p :: bs) = size as + 3 := by
  induction as with
  | nil => simp [offset]
  | cons a as ih =>
    simp only [List.map_cons, List.mem_cons, not_or] at h
    rw [List.cons_append, offset, if_neg (Ne.symm h.1), ih h.2, size_cons]
    omega

theorem used_foldl (base : Word) (ps : List Part) (q : Placement) :
    (ps.foldl (add base) q).used = q.used + size ps := by
  induction ps generalizing q with
  | nil => rfl
  | cons p ps ih =>
    rw [List.foldl_cons, ih, size_cons, used_add]
    omega

theorem used_placed (base : Word) (ps : List Part) : (placed base ps).used = size ps := by
  rw [placed, used_foldl]
  exact Nat.zero_add _

/-- Parts of other names leave a name alone. -/
theorem find?_foldl (base : Word) {ps : List Part} {name : String} (h : name ∉ ps.map Part.name)
    (q : Placement) : (ps.foldl (add base) q).dictionary.find? name = q.dictionary.find? name := by
  induction ps generalizing q with
  | nil => rfl
  | cons p ps ih =>
    simp only [List.map_cons, List.mem_cons, not_or] at h
    rw [List.foldl_cons, ih h.2, add, Dictionary.find?_insert, if_neg]
    simp [Dictionary.isNamed, entry, Ne.symm h.1]

/-- A cell that the parts to come leave alone is the same when they have been placed. -/
theorem fixed_foldl {base a : Word} {c : Cell} {ps : List Part} {n : Nat} {q : Placement}
    (h : Fixed q.memory (base.plus q.used) (size ps + n) a c) :
    Fixed (ps.foldl (add base) q).memory (base.plus (q.used + size ps)) n a c := by
  induction ps generalizing q with
  | nil => simpa using h
  | cons p ps ih =>
    have hsize := size_eq (field base) p
    rw [size_cons, Nat.add_assoc] at h
    -- the block shrinks by the part that is added, and the address of the cell was outside all of it
    have hadd : Fixed (add base q p).memory (base.plus (add base q p).used) (size ps + n) a c := by
      refine ⟨h.enter (by omega), h.here, h.latest, h.state, ?_⟩
      have hdrop := h.outside.drop
      rwa [Word.plus_plus] at hdrop
    have hrest := ih hadd
    have hused : (add base q p).used + size ps = q.used + size (p :: ps) := by
      rw [size_cons, used_add]
      omega
    rwa [hused] at hrest

/-- No two parts have the same name. -/
theorem nodup_names : (parts.map Part.name).Nodup := by
  decide +kernel

section Prefix

variable {base : Word} {as bs : List Part} {p : Part}

theorem notMem_of_split (h : parts = as ++ p :: bs) : p.name ∉ as.map Part.name := by
  have hnodup := nodup_names
  rw [h, List.map_append, List.nodup_append] at hnodup
  intro hmem
  exact hnodup.2.2 _ hmem _ (by simp) rfl

theorem notMem_of_split_after (h : parts = as ++ p :: bs) : p.name ∉ bs.map Part.name := by
  have hnodup := nodup_names
  rw [h, List.map_append, List.nodup_append, List.map_cons, List.nodup_cons] at hnodup
  exact hnodup.2.1.1

theorem field_of_split (h : parts = as ++ p :: bs) :
    field base p.name = base.plus (size as + 3) := by
  rw [field, h, offset_of_split (notMem_of_split h)]

def visible (base : Word) (p : Part) : Entry :=
  { name := p.name, code := field base p.name, flags := { immediate := p.immediate } }

/-- Each part that has been placed is found by its name. -/
theorem find?_placed (h : parts = as ++ bs) (hp : p ∈ as) :
    (placed base as).dictionary.find? p.name = some (visible base p) := by
  obtain ⟨front, back, rfl⟩ := List.append_of_mem hp
  rw [List.append_assoc, List.cons_append] at h
  have hback : p.name ∉ back.map Part.name := by
    have hafter := notMem_of_split_after h
    rw [List.map_append, List.mem_append, not_or] at hafter
    exact hafter.1
  rw [placed_split, find?_foldl base hback, add, Dictionary.find?_insert,
    if_pos (by simp [Dictionary.isNamed, entry]), visible, field_of_split h, entry, used_placed]

theorem find?_placed_none {name : String} (h : name ∉ as.map Part.name) :
    (placed base as).dictionary.find? name = none := by
  rw [placed, find?_foldl base h]
  rfl

/-- There is room for the parts that are yet to come. -/
theorem free_placed (h : parts = as ++ bs) (hf : Free base (size parts)) :
    Free (base.plus (size as)) (size bs) := by
  rw [h, size_append] at hf
  exact hf.drop

/-- The cells of a part that is there already stay what they are while the other parts are added. -/
theorem keeps_placed (h : parts = as ++ bs) (hf : Free base (size parts)) (hp : p ∈ as) :
    (placed base as).memory.Keeps (base.plus (size as)) (size bs) (field base p.name)
      (p.cells (field base)) := by
  obtain ⟨front, back, rfl⟩ := List.append_of_mem hp
  have hsplit : parts = front ++ p :: (back ++ bs) := by rw [h, List.append_assoc, List.cons_append]
  have hsize := size_eq (field base) p
  have htotal : size parts = size front + (p.size + (size back + size bs)) := by
    rw [hsplit, size_append, size_cons, size_append]
  have hadded : (add base (placed base front) p).memory.Keeps
      (base.plus (add base (placed base front) p).used) (size back + size bs) (field base p.name)
      (p.cells (field base)) := by
    have hroom : Free (base.plus (size front))
        (3 + (p.cells (field base)).length + (size back + size bs)) := by
      rw [← hsize]
      rw [htotal] at hf
      exact hf.drop
    rw [used_add, used_placed, ← Word.plus_plus, field_of_split hsplit, ← Word.plus_plus, hsize, add,
      used_placed]
    exact enter_keeps hroom
  intro i c hi
  have hall := fixed_foldl (hadded i c hi)
  have hused : (add base (placed base front) p).used + size back = size (front ++ p :: back) := by
    rw [used_add, used_placed, size_append, size_cons]
    omega
  rw [hused] at hall
  rw [placed_split]
  exact hall

end Prefix

/-- An image has room at every base that is allowed, even where its addresses wrap around. -/
theorem free_of_isValidBase {base : Word} {n : Nat} (h : Image.isValidBase base = true)
    (hn : n ≤ Word.bound) : Free base n := by
  have hbase : 2 < base.toInt := by
    simpa [Image.isValidBase, stateAddress, Int64.lt_iff_toInt_lt] using h
  have hnat : 2 < base.toBitVec.toNat ∧ base.toBitVec.toNat < 2 ^ 63 := by
    have hint : base.toBitVec.toInt = base.toInt := rfl
    rw [← hint, BitVec.toInt_eq_toNat_cond] at hbase
    split at hbase <;> omega
  -- the first address is positive, so the sum does not come round to the system variables
  have hne : ∀ i c, i < n → c ≤ 2 → base.plus i ≠ Int64.ofNat c := by
    intro i c hi hc he
    have hval := congrArg (fun w => w.toBitVec.toNat) he
    simp only [Word.plus, Int64.toBitVec_add, Int64.toBitVec_ofNat', BitVec.toNat_add,
      BitVec.toNat_ofNat] at hval
    unfold Word.bound at hn
    omega
  refine ⟨?_, fun i hi => hne i 0 hi (by decide), fun i hi => hne i 1 hi (by decide),
    fun i hi => hne i 2 hi (by decide)⟩
  unfold Word.count
  unfold Word.bound at hn
  omega

end Blueprint

end ForthMachine
