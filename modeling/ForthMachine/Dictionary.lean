import Std.Data.ExtTreeMap
import ForthMachine.Text.Numeral

namespace ForthMachine

structure Flags where
  immediate : Bool := false
  hidden : Bool := false
  deriving DecidableEq, Repr

structure Entry where
  name : String
  code : Word
  flags : Flags := {}
  deriving DecidableEq, Repr

namespace Entry

def render (e : Entry) : String :=
  e.name ++ "@" ++ Numeral.render e.code
    ++ (if e.flags.immediate then " immediate" else "")
    ++ (if e.flags.hidden then " hidden" else "")

def mapFlags (f : Flags → Flags) (e : Entry) : Entry := { e with flags := f e.flags }

end Entry

namespace Dictionary

/-- For each name the positions at which it stands, the last one first. -/
def nameIndex (names : List String) : Std.ExtTreeMap String (List Nat) :=
  names.zipIdx.foldl (fun index (name, i) => index.insert name (i :: index.getD name [])) ∅

/-- For each address the last position at which it stands. -/
def codeIndex (codes : List Word) : Std.ExtTreeMap Word Nat :=
  codes.zipIdx.foldl (fun index (code, i) => index.insert code i) ∅

theorem nameIndex_concat (names : List String) (name : String) :
    nameIndex (names ++ [name]) =
      (nameIndex names).insert name (names.length :: (nameIndex names).getD name []) := by
  simp [nameIndex, List.zipIdx_append]

theorem codeIndex_concat (codes : List Word) (code : Word) :
    codeIndex (codes ++ [code]) = (codeIndex codes).insert code codes.length := by
  simp [codeIndex, List.zipIdx_append]

theorem map_modify_of_forall_eq {α β : Type} (key : α → β) (f : α → α)
    (hf : ∀ a, key (f a) = key a) (xs : List α) (i : Nat) :
    (xs.modify i f).map key = xs.map key := by
  apply List.ext_getElem?
  intro j
  simp only [List.getElem?_map, List.getElem?_modify]
  by_cases h : i = j <;> cases xs[j]? <;> simp [h, hf]

end Dictionary

/-- The entries, oldest first, and their indexes. -/
structure Dictionary where
  entries : Array Entry := #[]
  names : Std.ExtTreeMap String (List Nat) := ∅
  codes : Std.ExtTreeMap Word Nat := ∅
  names_eq : names = Dictionary.nameIndex (entries.toList.map (·.name)) := by rfl
  codes_eq : codes = Dictionary.codeIndex (entries.toList.map (·.code)) := by rfl

namespace Dictionary

instance : EmptyCollection Dictionary := ⟨{}⟩

instance : Inhabited Dictionary := ⟨∅⟩

/-- The number of entries, hidden ones included. It is also the position of the next entry. -/
def size (d : Dictionary) : Nat := d.entries.size

def insert (d : Dictionary) (e : Entry) : Dictionary where
  entries := d.entries.push e
  names := d.names.insert e.name (d.size :: d.names.getD e.name [])
  codes := d.codes.insert e.code d.size
  names_eq := by simp [nameIndex_concat, d.names_eq, size]
  codes_eq := by simp [codeIndex_concat, d.codes_eq, size]

def modifyFlags (d : Dictionary) (i : Nat) (f : Flags → Flags) : Dictionary where
  entries := d.entries.modify i (Entry.mapFlags f)
  names := d.names
  codes := d.codes
  names_eq := by
    rw [d.names_eq, Array.toList_modify, map_modify_of_forall_eq]
    intro _
    rfl
  codes_eq := by
    rw [d.codes_eq, Array.toList_modify, map_modify_of_forall_eq]
    intro _
    rfl

def ofList (entries : List Entry) : Dictionary := entries.foldl insert ∅

def positions (d : Dictionary) (name : String) : List Nat := d.names.getD name []

def isVisible (d : Dictionary) (i : Nat) : Bool :=
  match d.entries[i]? with
  | some e => !e.flags.hidden
  | none => false

def findPosition? (d : Dictionary) (name : String) : Option Nat :=
  (d.positions name).find? d.isVisible

/-- The newest visible entry with a name; upper and lower case differ. -/
def find? (d : Dictionary) (name : String) : Option Entry :=
  (d.findPosition? name).bind (d.entries[·]?)

def codePosition? (d : Dictionary) (code : Word) : Option Nat := d.codes[code]?

/-- The newest entry, hidden or not, whose code field is at `code`. -/
def byCode? (d : Dictionary) (code : Word) : Option Entry :=
  (d.codePosition? code).bind (d.entries[·]?)

def keys (d : Dictionary) : List String := d.names.keys

def named (d : Dictionary) (name : String) : List Entry :=
  (d.positions name).reverse.filterMap (d.entries[·]?)

def listing (d : Dictionary) : List Entry := d.keys.flatMap d.named

/-- The same entries for each name, put in the order of the names. -/
def normalize (d : Dictionary) : Dictionary := ofList d.listing

/-- Two dictionaries are the same when they have the same entries under each name. -/
def sameAs (d e : Dictionary) : Bool := d.listing = e.listing

def dump (d : Dictionary) : String := String.join (d.listing.map (·.render ++ "\n"))

end Dictionary

end ForthMachine
