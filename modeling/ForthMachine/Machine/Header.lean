import ForthMachine.Machine.Basic

namespace ForthMachine.State

def comma (c : Cell) : Action State Unit := do
  let h ← fetchAddress Memory.hereAddress
  store h c
  store Memory.hereAddress (.addr (h + 1))

def latestLink (st : State) : Except Trap Cell :=
  match st.memory[Memory.latestAddress]? with
  | none | some .nil => .ok .nil
  | some c =>
    match c.address? with
    | some a => .ok (.addr a)
    | none => .error { kind := .invalidAddress, address := Memory.latestAddress }

/-- Builds a header at the next free address and enters its name into the dictionary. The next free
address is then that of the code field, which is still to be filled. Gives the position of the new
entry. -/
def define (name : String) : Action State Nat := do
  let h ← fetchAddress Memory.hereAddress
  match (← get).latestLink with
  | .error t => throw (.trap t)
  | .ok link =>
    let code := h + 3
    store h (.ref code)
    store (h + 1) link
    store (h + 2) (.text name)
    store Memory.hereAddress (.addr code)
    store Memory.latestAddress (.addr h)
    modifyGet fun st =>
      (st.dictionary.size, { st with dictionary := st.dictionary.insert { name, code } })

def headerPosition (st : State) (link : Word) : Except Trap Nat :=
  match st.memory[link]? with
  | none => .error { kind := .unwrittenAddress, address := link }
  | some c =>
    match c.number?.bind st.dictionary.codePosition? with
    | some i => .ok i
    | none => .error { kind := .dictionaryInconsistency, address := link }

def latest : Action State Nat := do
  let link ← fetchAddress Memory.latestAddress
  match (← get).headerPosition link with
  | .ok i => pure i
  | .error t => throw (.trap t)

/-- Follows the chain of headers from the link `c`, given the links that were followed before. Gives
the positions of the entries, and the trap that ended the walk early. A link that comes a second time
ends it, so `fuel` is enough when it exceeds the number of addresses written. -/
def chainAux (st : State) : Nat → List Word → Cell → List Nat × Option Trap
  | 0, _, _ => ([], none)
  | fuel + 1, followed, c =>
    if c = .nil then ([], none)
    else match c.address? with
      | none => ([], some { kind := .dictionaryInconsistency })
      | some link =>
        if link ∈ followed then ([], some { kind := .dictionaryInconsistency, address := link })
        else match st.headerPosition link with
          | .error t => ([], some t)
          | .ok i =>
            match st.memory[link + 1]? with
            -- the header itself is sound, only its link is missing
            | none => ([i], some { kind := .unwrittenAddress, address := link + 1 })
            | some next =>
              let (more, trap) := chainAux st fuel (link :: followed) next
              (i :: more, trap)

/-- The entries of the chain of headers, newest first, and the trap that ended the walk early. -/
def chain (st : State) : List Entry × Option Trap :=
  match st.memory[Memory.latestAddress]? with
  | none => ([], none)
  | some c =>
    let (positions, trap) := st.chainAux (st.memory.size + 2) [] c
    (positions.filterMap (st.dictionary.entries[·]?), trap)

end ForthMachine.State
