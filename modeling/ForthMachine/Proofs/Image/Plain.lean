import ForthMachine.Proofs.Image.Essential
import ForthMachine.Proofs.Interpreter.Interpretation

namespace ForthMachine

open Memory State Machine

namespace Blueprint

inductive Plain where
  | operation (op : Operation)
  | definition (name : String) (body : Body String String)
  deriving DecidableEq, Repr

namespace Plain

def name : Plain → String
  | operation op => op.builtin.name
  | definition name _ => name

def meaning (field : String → Word) : Plain → Meaning
  | operation op => .operation op
  | definition _ body => .definition (body.locate field)

def part : Plain → Part
  | operation op => ofBuiltin op.builtin
  | definition name body => colon name body

theorem part_name (p : Plain) : p.part.name = p.name := by
  cases p <;> rfl

end Plain

def plains : List Plain :=
  Operation.all.map .operation ++ colons.map fun (name, body) => .definition name body

def plainNames : List String := plains.map Plain.name

theorem part_mem {p : Plain} (hp : p ∈ plains) : p.part ∈ parts := by
  revert p
  decide +kernel

theorem eq_of_name {p q : Plain} (hp : p ∈ plains) (hq : q ∈ plains) (h : p.name = q.name) : p = q := by
  have hall : ∀ p ∈ plains, ∀ q ∈ plains, p.name = q.name → p = q := by decide +kernel
  exact hall p hp q hq h

theorem immediate_part {p : Plain} (hp : p ∈ plains) : p.part.immediate = false := by
  revert p
  decide +kernel

/-- Two parts have different code fields. -/
theorem field_injective {base : Word} (hf : Free base (size parts)) {p q : Part} (hp : p ∈ parts)
    (hq : q ∈ parts) (h : field base p.name = field base q.name) : p = q := by
  obtain ⟨as, bs, has⟩ := List.append_of_mem hp
  obtain ⟨as', bs', has'⟩ := List.append_of_mem hq
  have hcount := hf.count
  have hsize : size as = size as' := by
    have hleft := congrArg size has
    have hright := congrArg size has'
    have hpos := length_cells_pos (fun _ => 0) p
    have hpos' := length_cells_pos (fun _ => 0) q
    rw [size_append, size_cons, size_eq fun _ => 0] at hleft hright
    by_cases heq : size as + 3 = size as' + 3
    · omega
    · rw [field_of_split has, field_of_split has'] at h
      exact absurd h (Word.plus_ne_plus base (by omega) (by omega) heq)
  -- the parts in front of the two have the same size, so none of them is longer than the other
  have hsame (front back : List Part) (r : Part) : size (front ++ r :: back) ≠ size front := by
    have hr := size_eq (fun _ => 0) r
    rw [size_append, size_cons]
    omega
  rcases List.append_eq_append_iff.mp (has.symm.trans has') with ⟨front, hfront, hrest⟩ |
    ⟨front, hfront, hrest⟩
  · cases front with
    | nil => exact (List.cons.inj hrest).1
    | cons r front => exact absurd (hfront ▸ hsize).symm (hsame as front r)
  · cases front with
    | nil => exact (List.cons.inj hrest).1.symm
    | cons r front => exact absurd (hfront ▸ hsize) (hsame as' front r)

def meanings (base w : Word) : Option Meaning :=
  (plains.find? fun p => field base p.name = w).map (Plain.meaning (field base))

section Meanings

variable {base w : Word} {p : Plain} {M : Memory}

/-- At the code field of a plain word stands its meaning. -/
theorem meanings_of_mem (hf : Free base (size parts)) (hp : p ∈ plains) :
    meanings base (field base p.name) = some (p.meaning (field base)) := by
  cases hfind : plains.find? (fun q => field base q.name = field base p.name) with
  | none =>
    have hno := List.find?_eq_none.mp hfind p hp
    simp at hno
  | some q =>
    have hq : q ∈ plains := List.mem_of_find?_eq_some hfind
    have hfield : field base q.name = field base p.name := by simpa using List.find?_some hfind
    rw [← Plain.part_name, ← Plain.part_name] at hfield
    have hpart : q.part = p.part := field_injective hf (part_mem hq) (part_mem hp) hfield
    have hname : q.name = p.name := by rw [← Plain.part_name, hpart, Plain.part_name]
    rw [meanings, hfind, eq_of_name hq hp hname]
    rfl

theorem mem_of_meanings {x : Meaning} (h : meanings base w = some x) :
    ∃ p ∈ plains, field base p.name = w ∧ p.meaning (field base) = x := by
  obtain ⟨p, hfind, hx⟩ := Option.map_eq_some_iff.mp h
  have hfield := List.find?_some hfind
  exact ⟨p, List.mem_of_find?_eq_some hfind, by simpa using hfield, hx⟩

/-- Memory that holds the parts of the plain words holds what they mean. -/
theorem laid_of_cells (hz : M[builtinField base .zeroBranch]? = some (.builtin .zeroBranch))
    (hb : M[builtinField base .branch]? = some (.builtin .branch))
    (hd : ∀ p ∈ plains, M.Holds (field base p.name) (p.part.cells (field base))) :
    Laid ⟨builtinField base .zeroBranch, builtinField base .branch⟩ (meanings base) M where
  zeroBranch := hz
  branch := hb
  operation w op h := by
    obtain ⟨p, hp, rfl, hmeaning⟩ := mem_of_meanings h
    cases p with
    | operation op' =>
      cases hmeaning
      exact holds_singleton.mp (hd _ hp)
    | definition name body => cases hmeaning
  definition w body h := by
    obtain ⟨p, hp, rfl, hmeaning⟩ := mem_of_meanings h
    cases p with
    | operation op' => cases hmeaning
    | definition name source =>
      cases hmeaning
      have hcells := hd _ hp
      simp only [Plain.part, colon, Part.cells, List.flatMap_cons, List.flatMap_nil, List.append_nil,
        Item.code] at hcells
      exact hcells

end Meanings

def isLoopFree (names : List String) : Body String String → Bool
  | .empty => true
  | .seq first second => isLoopFree names first && isLoopFree names second
  | .literal _ => true
  | .word name => names.contains name
  | .ifThen yes => isLoopFree names yes
  | .ifElse yes no => isLoopFree names yes && isLoopFree names no
  | .beginUntil _ | .beginAgain _ => false

def isLayered : List String → List Plain → Bool
  | _, [] => true
  | names, .operation op :: rest => isLayered (op.builtin.name :: names) rest
  | names, .definition name body :: rest => isLoopFree names body && isLayered (name :: names) rest

section Total

variable {field : String → Word} {words : Word → Option Meaning} {names : List String}

/-- A body without loops has an effect on every stack if its words have. -/
theorem total_locate {b : Body String String} (hn : ∀ w ∈ names, Body.Total words (.word (field w)))
    (hb : isLoopFree names b = true) : Body.Total words (b.locate field) := by
  induction b with
  | empty => exact Body.total_empty
  | seq first second ihf ihs =>
    rw [isLoopFree, Bool.and_eq_true] at hb
    exact (ihf hb.1).seq (ihs hb.2)
  | literal token => exact Body.total_literal
  | word name =>
    rw [isLoopFree, List.contains_iff_mem] at hb
    exact hn name hb
  | ifThen yes ih => exact (ih hb).ifThen
  | ifElse yes no ihy ihn =>
    rw [isLoopFree, Bool.and_eq_true] at hb
    exact (ihy hb.1).ifElse (ihn hb.2)
  | beginUntil body => cases hb
  | beginAgain body => cases hb

/-- Layered words have an effect everywhere, by induction on the layers. -/
theorem total_layered {ps : List Plain}
    (hm : ∀ p ∈ ps, words (field p.name) = some (p.meaning field))
    (hn : ∀ w ∈ names, Body.Total words (.word (field w))) (hl : isLayered names ps = true) :
    ∀ p ∈ ps, Body.Total words (.word (field p.name)) := by
  induction ps generalizing names with
  | nil => simp
  | cons p ps ih =>
    have hmeaning := hm p (by simp)
    -- a definition has an effect because the words before it have
    have hp : Body.Total words (.word (field p.name)) ∧ isLayered (p.name :: names) ps = true := by
      cases p with
      | operation op => exact ⟨Body.total_operation hmeaning, hl⟩
      | definition name body =>
        rw [isLayered, Bool.and_eq_true] at hl
        exact ⟨Body.total_definition hmeaning (total_locate hn hl.1), hl.2⟩
    have hnames : ∀ w ∈ p.name :: names, Body.Total words (.word (field w)) := by
      intro w hw
      rcases List.mem_cons.mp hw with rfl | hw
      · exact hp.1
      · exact hn w hw
    intro q hq
    rcases List.mem_cons.mp hq with rfl | hq
    · exact hp.1
    · exact ih (fun r hr => hm r (by simp [hr])) hnames hp.2 q hq

end Total

theorem isLayered_plains : isLayered [] plains = true := by
  decide +kernel

/-- Every plain word has an effect on every stack. -/
theorem total_plain {base : Word} (hf : Free base (size parts)) {w : String} (hw : w ∈ plainNames) :
    Body.Total (meanings base) (.word (field base w)) := by
  obtain ⟨p, hp, rfl⟩ := List.mem_map.mp hw
  exact total_layered (fun q hq => meanings_of_mem hf hq) (by simp) isLayered_plains p hp

def tokenBody (tokens : List String) : Body String String :=
  .ofList (tokens.map fun t => if t ∈ plainNames then .word t else .literal t)

def tokenSize (tokens : List String) : Nat :=
  3 + (tokens.foldr (fun t n => (if t ∈ plainNames then 1 else 2) + n) 0 + 2)

section Tokens

variable {base : Word} {tokens : List String} {D : Dictionary}

/-- The body spells the tokens that it was made of. -/
theorem spelling_tokenBody : (tokenBody tokens).spelling = tokens := by
  induction tokens with
  | nil => rfl
  | cons t tokens ih =>
    have hrest : (tokenBody (t :: tokens)).spelling = t :: (tokenBody tokens).spelling := by
      by_cases h : t ∈ plainNames <;>
        simp only [tokenBody, List.map_cons, Body.ofList, Body.spelling, h, ↓reduceIte,
          List.singleton_append]
    rw [hrest, ih]

theorem isFlat_tokenBody : (tokenBody tokens).isFlat = true := by
  induction tokens with
  | nil => rfl
  | cons t tokens ih =>
    rw [tokenBody, List.map_cons, Body.ofList, Body.isFlat, Bool.and_eq_true]
    refine ⟨?_, ih⟩
    split <;> rfl

/-- Wherever the plain words have their names, the body stands for the addresses of the blueprint. -/
theorem resolve?_tokenBody
    (hp : ∀ p ∈ plains, D.find? p.name = some (visible base p.part))
    (ht : ∀ t ∈ tokens, t ∈ plainNames ∨ D.find? t = none ∧ (Numeral.decimal? t.toList).isSome) :
    (tokenBody tokens).resolve? D = some ((tokenBody tokens).locate (field base)) := by
  induction tokens with
  | nil => rfl
  | cons t tokens ih =>
    have hrest : (Body.ofList (tokens.map fun t => if t ∈ plainNames then Body.word t else .literal t)
        ).resolve? D = some ((tokenBody tokens).locate (field base)) :=
      ih fun s hs => ht s (by simp [hs])
    rw [tokenBody, List.map_cons, Body.ofList, Body.resolve?, Body.locate, hrest]
    by_cases hmem : t ∈ plainNames
    · obtain ⟨p, hpl, rfl⟩ := List.mem_map.mp hmem
      simp [hmem, Body.resolve?, Body.locate, hp p hpl, visible, immediate_part hpl, Plain.part_name,
        tokenBody]
    · obtain ⟨hnone, hsome⟩ := (ht t (by simp)).resolve_left hmem
      obtain ⟨k, hk⟩ := Option.isSome_iff_exists.mp hsome
      simp [hmem, Body.resolve?, Body.locate, hnone, hk, tokenBody]

theorem length_code_tokenBody (tokens : List String) (links : Branches) (f : String → Word) :
    3 + ((((tokenBody tokens).locate f).code links).length + 2) = tokenSize tokens := by
  rw [tokenSize]
  congr 2
  induction tokens with
  | nil => rfl
  | cons t tokens ih =>
    rw [tokenBody] at ih
    rw [tokenBody, List.map_cons, Body.ofList, Body.locate, Body.code, List.length_append, ih,
      List.foldr_cons]
    congr 1
    split <;> rfl

/-- Every text of plain words and numbers has an effect. -/
theorem total_tokenBody (hf : Free base (size parts)) :
    Body.Total (meanings base) ((tokenBody tokens).locate (field base)) := by
  induction tokens with
  | nil => exact Body.total_empty
  | cons t tokens ih =>
    rw [tokenBody, List.map_cons, Body.ofList, Body.locate]
    refine Body.Total.seq ?_ ih
    split
    · next h => exact total_plain hf h
    · exact Body.total_literal

end Tokens

end Blueprint

end ForthMachine
