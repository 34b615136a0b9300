import ForthMachine.Proofs.Image.Plain

namespace ForthMachine

open Memory State Machine

namespace Word

variable {x y : Word}

/-- Quotient and remainder belong together, also where the quotient wraps around. -/
theorem div_mul_add_mod (x y : Word) : x / y * y + x % y = x := by
  have hdiv : Int64.ofInt (x.toInt.tdiv y.toInt) = x / y := by
    apply Int64.toInt_inj.mp
    rw [Int64.toInt_div, Int64.toInt_ofInt]
  have hmod : Int64.ofInt (x.toInt.tmod y.toInt) = x % y := by
    rw [← Int64.toInt_mod, Int64.ofInt_toInt]
  calc x / y * y + x % y
    _ = Int64.ofInt (x.toInt.tdiv y.toInt) * Int64.ofInt y.toInt + Int64.ofInt (x.toInt.tmod y.toInt) := by
      rw [hdiv, hmod, Int64.ofInt_toInt]
    _ = Int64.ofInt (x.toInt.tdiv y.toInt * y.toInt + x.toInt.tmod y.toInt) := by
      rw [Int64.ofInt_add, Int64.ofInt_mul]
    _ = x := by rw [Int.tdiv_mul_add_tmod, Int64.ofInt_toInt]

/-- A remainder is smaller than the divisor in magnitude, also for the lowest word. -/
theorem natAbs_mod_lt (x : Word) (hy : y ≠ 0) : (x % y).toInt.natAbs < y.toInt.natAbs := by
  have hpos : 0 < y.toInt.natAbs := by
    apply Int.natAbs_pos.mpr
    intro hzero
    exact hy (Int64.toInt_inj.mp hzero)
  rw [Int64.toInt_mod, Int.natAbs_tmod]
  exact Nat.mod_lt _ hpos

/-- A remainder has the sign of the dividend. -/
theorem sign_mod (x y : Word) : x % y = 0 ∨ (x % y).toInt.sign = x.toInt.sign := by
  have hsign := Int.sign_tmod x.toInt y.toInt
  rw [← Int64.toInt_mod] at hsign
  split at hsign
  · exact .inl (Int64.toInt_inj.mp (Int.sign_eq_zero_iff_zero.mp hsign))
  · exact .inr hsign

/-- Only the least number has no negative. -/
theorem toInt_neg_of_ne (h : x ≠ Int64.minValue) : (-x).toInt = -x.toInt := by
  have hmin := Int64.le_toInt x
  have hmax := Int64.toInt_lt x
  have hne : x.toInt ≠ -2 ^ 63 := fun he => h (Int64.toInt_inj.mp he)
  rw [Int64.toInt_neg]
  apply Int.bmod_eq_of_le <;> omega

end Word

namespace Operation

variable {M : Memory} {D : Dictionary} {a w : Word} {R : Stack Word} {S S' : Stack Cell}
  {input : Option Source} {output : Option Sink} {op : Operation} {kind : Trap.Kind}

/-- An operation on the stack alone that stops. What the output is does not matter. -/
theorem fails_of_change {x : Action (Stack Cell) Unit} (hx : op.stackAction? = some x)
    (hs : op.change S = .stop kind S') (hc : M[a]? = some (.ref w))
    (hf : M[w]? = some (.builtin op.builtin)) :
    Fails (Shows (running M D a R S) input output) kind op.builtin.name
      (Shows (running M D a R S') input output) := by
  have hstop : State.onStack x (running M D a R S) =
      .error (.trap { kind := kind }) (running M D a R S') := by
    rw [onStack_apply]
    simp only [running, stackAction?_apply hx, hs, Change.result]
    rfl
  exact fails_onState hc hf (perform_of_stackAction? hx w) hstop rfl

end Operation

namespace Blueprint

/-- A body of plain words, run on one stack, leaves another and writes nothing. Words are called by their
names, so that this does not depend on the place of the image. -/
inductive Turns : Body String String → Stack Cell → Stack Cell → Prop where
  | empty {s : Stack Cell} : Turns .empty s s
  | seq {a b : Body String String} {s t u : Stack Cell} : Turns a s t → Turns b t u → Turns (.seq a b) s u
  | literal {token : String} {n : Word} {s : Stack Cell} : Numeral.decimal? token.toList = some n →
    Turns (.literal token) s (.int n :: s)
  | operation {s t : Stack Cell} (op : Operation) : op.stackAction?.isSome = true →
    op.change s = .leave t → Turns (.word op.builtin.name) s t
  | definition {name : String} {body : Body String String} {s t : Stack Cell} : (name, body) ∈ colons →
    Turns body s t → Turns (.word name) s t
  | ifTrue {yes : Body String String} {c : Cell} {s t : Stack Cell} : c.isFalse = false →
    Turns yes s t → Turns (.ifThen yes) (c :: s) t
  | ifFalse {yes : Body String String} {c : Cell} {s : Stack Cell} : c.isFalse = true →
    Turns (.ifThen yes) (c :: s) s

structure HasPlains (base : Word) (M : Memory) : Prop where
  plain : ∀ p ∈ plains, M.Holds (field base p.name) (p.part.cells (field base))
  zeroBranch : M[builtinField base .zeroBranch]? = some (.builtin .zeroBranch)

variable {base a : Word} {M : Memory} {D : Dictionary} {R : Stack Word} {S S' xs ys : Stack Cell}
  {input : Option Source} {output : Option Sink} {name : String} {body : Body String String}

theorem operation_mem (op : Operation) : .operation op ∈ plains := by
  cases op <;> decide

theorem definition_mem (h : (name, body) ∈ colons) : .definition name body ∈ plains :=
  List.mem_append_right _ (List.mem_map.mpr ⟨(name, body), h, rfl⟩)

theorem HasPlains.operation (hm : HasPlains base M) (op : Operation) :
    M[field base op.builtin.name]? = some (.builtin op.builtin) :=
  holds_singleton.mp (hm.plain _ (operation_mem op))

/-- A definition begins with DOCOL, then come its code and EXIT. -/
theorem HasPlains.definition (hm : HasPlains base M) (h : (name, body) ∈ colons) :
    M[field base name]? = some (.builtin .docol) ∧
      M.Holds ((field base name).plus 1) ((body.locate (field base)).code (branches (field base))) ∧
      M[((field base name).plus 1).plus ((body.locate (field base)).code (branches (field base))).length]? =
        some (.builtin .exit) := by
  have hcells := hm.plain _ (definition_mem h)
  simp only [Plain.name, Plain.part, colon, Part.cells, List.flatMap_cons, List.flatMap_nil, List.append_nil,
    Item.code] at hcells
  obtain ⟨hdocol, hrest⟩ := holds_cons.mp hcells
  obtain ⟨hbody, hexit⟩ := holds_append.mp hrest
  exact ⟨hdocol, hbody, holds_singleton.mp hexit⟩

/-- Threaded code turns the stack as its body does, by induction on the body; the address and the return
stack vary, because a definition runs elsewhere and returns. -/
theorem leads_of_turns (hm : HasPlains base M) (h : Turns body S S') :
    ∀ a R, M.Holds a ((body.locate (field base)).code (branches (field base))) →
      Leads (Shows (running M D a R S) input output)
        (Shows (running M D (a.plus ((body.locate (field base)).code (branches (field base))).length) R S')
          input output) := by
  induction h with
  | empty =>
    intro a R _
    rw [Body.locate, Body.code, List.length_nil, Word.plus_zero]
    exact Leads.refl _
  | seq _ _ ihx ihy =>
    intro a R hc
    obtain ⟨hx, hy⟩ := holds_append.mp hc
    rw [Body.locate, Body.code, List.length_append, ← Word.plus_plus]
    exact (ihx a R hx).trans (ihy _ R hy)
  | literal hn =>
    intro a R hc
    rw [Body.locate, hn] at hc ⊢
    exact leads_lit hc
  | operation op hq hs =>
    intro a R hc
    obtain ⟨x, hx⟩ := Option.isSome_iff_exists.mp hq
    exact Operation.leads_of_change hx hs (holds_singleton.mp hc) (hm.operation op)
  | definition hd _ ih =>
    intro a R hc
    obtain ⟨hdocol, hbody, hexit⟩ := hm.definition hd
    apply (leads_docol (holds_singleton.mp hc) hdocol).trans
    exact (ih _ (a.plus 1 :: R) hbody).trans (leads_exit hexit)
  | ifTrue hf _ ih =>
    intro a R hc
    obtain ⟨hhead, hyes⟩ := Body.holds_ifThen hc
    rw [Body.locate, Body.length_code_ifThen, Nat.add_comm, ← Word.plus_plus]
    exact (leads_zeroBranch_of_not_isFalse (holds_cons.mp hhead).1 hm.zeroBranch hf).trans (ih _ R hyes)
  | @ifFalse yes c s hf =>
    intro a R hc
    obtain ⟨hhead, -⟩ := Body.holds_ifThen hc
    have hend : a.plus 1 + Int64.ofNat (((yes.locate (field base)).code (branches (field base))).length + 1) =
        a.plus ((((Body.ifThen yes).locate (field base)).code (branches (field base))).length) := by
      rw [Word.plus_add_ofNat, Body.locate, Body.length_code_ifThen]
      congr 1
      omega
    rw [← hend]
    exact leads_zeroBranch_of_isFalse hhead hm.zeroBranch hf

end Blueprint

namespace State

/-- Memory that holds everything that the memory of a state does, the system variables apart. -/
def Underlies (st : State) (M : Memory) : Prop :=
  ∀ a c, a ∉ [hereAddress, latestAddress, stateAddress] → st.memory[a]? = some c → M[a]? = some c

/-- Whoever refers to the word with a name, the machine goes on after the reference, with `ys` on the stack
in the place of `xs`, and nothing else has changed. The top of the stack is the head of the list. -/
def Computes (st : State) (name : String) (xs ys : Stack Cell) : Prop :=
  ∃ e, st.dictionary.find? name = some e ∧
    ∀ M D a R S input output, st.Underlies M → M[a]? = some (.ref e.code) →
      Leads (Shows (running M D a R (xs ++ S)) input output)
        (Shows (running M D (a.plus 1) R (ys ++ S)) input output)

def Stops (st : State) (name : String) (xs : Stack Cell) (kind : Trap.Kind) (word : String) : Prop :=
  ∃ e, st.dictionary.find? name = some e ∧
    ∀ M D a R S input output, st.Underlies M → M[a]? = some (.ref e.code) →
      Fails (Shows (running M D a R (xs ++ S)) input output) kind word fun m =>
        m.state.memory = M ∧ m.state.stack = S

/-- What the core words do. Stacks are written with the top first, so that `[y, x]` are the operands of
`x y WORD`. -/
structure HasCoreWords (st : State) : Prop where
  nip : ∀ x y, st.Computes "NIP" [y, x] [y]
  tuck : ∀ x y, st.Computes "TUCK" [y, x] [y, x, y]
  copyPair : ∀ x y, st.Computes "2DUP" [y, x] [y, x, y, x]
  dropPair : ∀ x y, st.Computes "2DROP" [y, x] []
  copyTrue : ∀ x, st.Computes "?DUP" [x] (if x.isFalse then [x] else [x, x])
  not : ∀ x, st.Computes "NOT" [x] [.ofBool x.isFalse]
  equal : ∀ x y, st.Computes "=" [y, x] [.ofBool (x.sameAs y)]
  unequal : ∀ x y, st.Computes "<>" [y, x] [.ofBool (!x.sameAs y)]
  increment : ∀ x, st.Computes "1+" [.int x] [.int (x + 1)]
  decrement : ∀ x, st.Computes "1-" [.int x] [.int (x - 1)]
  greater : ∀ x y, st.Computes ">" [.int y, .int x] [.ofBool (y.toInt < x.toInt)]
  negative : ∀ x, st.Computes "0<" [.int x] [.ofBool (x.toInt < 0)]
  absolute : ∀ x, ∃ n, st.Computes "ABS" [.int x] [.int n] ∧
    (x ≠ Int64.minValue → n.toInt = x.toInt.natAbs) ∧ (x = Int64.minValue → n = Int64.minValue)
  quotient : ∀ x y, y ≠ 0 → ∃ q r, st.Computes "/" [.int y, .int x] [.int q] ∧
    st.Computes "MOD" [.int y, .int x] [.int r] ∧ x = q * y + r ∧ r.toInt.natAbs < y.toInt.natAbs ∧
    (r = 0 ∨ r.toInt.sign = x.toInt.sign) ∧
    (x = Int64.minValue → y = -1 → q = Int64.minValue ∧ r = 0)
  zeroDivision : ∀ x, st.Stops "/" [.int 0, .int x] .zeroDivision "/MOD" ∧
    st.Stops "MOD" [.int 0, .int x] .zeroDivision "/MOD"

end State

namespace Blueprint

variable {base : Word} {M : Memory} {xs ys : Stack Cell} {name : String} {body : Body String String}

/-- Memory that holds the image holds its plain words. -/
theorem hasPlains_of_underlies (hf : Free base (size parts)) (hu : (idle base parts).Underlies M) :
    HasPlains base M := by
  -- a cell that the installation has left for good is in every such memory
  have hcell {p : Part} (hp : p ∈ parts) : M.Holds (field base p.name) (p.cells (field base)) := by
    intro i hi
    have hfixed := keeps_parts hf hp i _ (List.getElem?_eq_getElem hi)
    rw [List.getElem?_eq_getElem hi]
    refine hu _ _ ?_ hfixed.cell
    simp only [List.mem_cons, List.not_mem_nil, or_false, not_or]
    exact ⟨hfixed.here, hfixed.latest, hfixed.state⟩
  refine ⟨fun p hp => ?_, holds_singleton.mp (hcell (grounded_parts.2 .zeroBranch))⟩
  rw [← Plain.part_name]
  exact hcell (part_mem hp)

theorem find?_plainName (hw : name ∈ plainNames) :
    ∃ e, (idle base parts).dictionary.find? name = some e ∧ e.code = field base name := by
  obtain ⟨p, hp, rfl⟩ := List.mem_map.mp hw
  rw [← Plain.part_name]
  exact ⟨_, find?_parts (part_mem hp), rfl⟩

/-- What a body does to a stack, its word does wherever it is referred to. -/
theorem computes_of_turns (hf : Free base (size parts)) (hw : name ∈ plainNames)
    (h : ∀ S, Turns (.word name) (xs ++ S) (ys ++ S)) : (idle base parts).Computes name xs ys := by
  obtain ⟨e, hfind, hcode⟩ := find?_plainName hw
  refine ⟨e, hfind, fun M D a R S input output hu hc => ?_⟩
  rw [hcode] at hc
  exact leads_of_turns (hasPlains_of_underlies hf hu) (h S) a R (holds_singleton.mpr hc)

/-- A definition that begins with a division stops where the divisor is zero. -/
theorem stops_of_division {rest : Body String String} (hf : Free base (size parts))
    (hd : (name, .seq (.word "/MOD") rest) ∈ colons) (x : Word) :
    (idle base parts).Stops name [.int 0, .int x] .zeroDivision "/MOD" := by
  have hw : name ∈ plainNames := List.mem_map.mpr ⟨_, definition_mem hd, rfl⟩
  obtain ⟨e, hfind, hcode⟩ := find?_plainName hw
  refine ⟨e, hfind, fun M D a R S input output hu hc => ?_⟩
  rw [hcode] at hc
  have hm := hasPlains_of_underlies hf hu
  obtain ⟨hdocol, hbody, -⟩ := hm.definition hd
  have hstop : Operation.divMod.change (.int 0 :: .int x :: S) = .stop .zeroDivision S := rfl
  have hfails : Fails (Shows (running M D ((field base name).plus 1) (a.plus 1 :: R)
      (.int 0 :: .int x :: S)) input output) .zeroDivision Operation.divMod.builtin.name
      (Shows (running M D ((field base name).plus 1) (a.plus 1 :: R) S) input output) :=
    Operation.fails_of_change rfl hstop (holds_cons.mp hbody).1 (hm.operation .divMod)
  apply (leads_docol hc hdocol).fails
  exact hfails.mono fun m hm => by
    rw [hm.state]
    exact ⟨rfl, rfl⟩

/-- Two operations, one after the other. -/
theorem turns_pair {s t u : Stack Cell} (op op' : Operation) (hq : op.stackAction?.isSome = true)
    (hq' : op'.stackAction?.isSome = true) (h : op.change s = .leave t) (h' : op'.change t = .leave u) :
    Turns (.ofWords [op.builtin.name, op'.builtin.name]) s u :=
  .seq (.operation op hq h) (.seq (.operation op' hq' h') .empty)

theorem turns_nip (x y : Cell) (s : Stack Cell) : Turns (.word "NIP") (y :: x :: s) (y :: s) :=
  .definition (by decide) (turns_pair .swap .drop rfl rfl rfl rfl)

theorem turns_negative (x : Word) (s : Stack Cell) :
    Turns (.word "0<") (.int x :: s) (.ofBool (x < 0) :: s) := by
  have hzero : Numeral.decimal? "0".toList = some 0 := by decide +kernel
  exact .definition (by decide) (.seq (.literal hzero) (.operation .less rfl rfl))

theorem turns_absolute (x : Word) (s : Stack Cell) :
    Turns (.word "ABS") (.int x :: s) (.int (if x < 0 then -x else x) :: s) := by
  have hword : ("ABS", Body.seq (.ofWords ["DUP", "0<"]) (.ifThen (.word "NEGATE"))) ∈ colons := by decide
  have hflag : Turns (.ofWords ["DUP", "0<"]) (.int x :: s) (.ofBool (x < 0) :: .int x :: s) :=
    .seq (.operation .dup rfl rfl) (.seq (turns_negative x _) .empty)
  by_cases hneg : x < 0
  · rw [if_pos hneg]
    rw [decide_eq_true hneg] at hflag
    exact .definition hword (.seq hflag (.ifTrue (by decide) (.operation .negate rfl rfl)))
  · rw [if_neg hneg]
    rw [decide_eq_false hneg] at hflag
    exact .definition hword (.seq hflag (.ifFalse (by decide)))

/-- A division leaves the quotient above the remainder. -/
theorem turns_divMod {x y : Word} (hy : y ≠ 0) (s : Stack Cell) :
    Turns (.word "/MOD") (.int y :: .int x :: s) (.int (x / y) :: .int (x % y) :: s) := by
  refine .operation .divMod rfl ?_
  simp only [Operation.change, Operation.numbers, Cell.number?]
  rw [if_neg hy]

/-- The core words of a new image do what their names say. -/
theorem hasCoreWords_idle (hf : Free base (size parts)) : (idle base parts).HasCoreWords where
  nip x y := computes_of_turns hf (by decide +kernel) (turns_nip x y)
  tuck x y := computes_of_turns hf (by decide +kernel) fun s =>
    .definition (by decide) (turns_pair .swap .copySecond rfl rfl rfl rfl)
  copyPair x y := computes_of_turns hf (by decide +kernel) fun s =>
    .definition (by decide) (turns_pair .copySecond .copySecond rfl rfl rfl rfl)
  dropPair x y := computes_of_turns hf (by decide +kernel) fun s =>
    .definition (by decide) (turns_pair .drop .drop rfl rfl rfl rfl)
  copyTrue x := by
    have hword : ("?DUP", Body.seq (.word "DUP") (.ifThen (.word "DUP"))) ∈ colons := by decide
    refine computes_of_turns hf (by decide +kernel) fun s => .definition hword ?_
    refine .seq (.operation .dup rfl rfl) ?_
    cases hx : x.isFalse with
    | true => exact .ifFalse hx
    | false => exact .ifTrue hx (.operation .dup rfl rfl)
  not x := computes_of_turns hf (by decide +kernel) fun s =>
    .definition (by decide) (.operation .zeroEquals rfl rfl)
  equal x y := computes_of_turns hf (by decide +kernel) fun s => .operation .equals rfl rfl
  unequal x y := by
    have hflag : Cell.isFalse (.ofBool (x.sameAs y)) = !x.sameAs y := by cases x.sameAs y <;> decide
    rw [← hflag]
    exact computes_of_turns hf (by decide +kernel) fun s =>
      .definition (by decide) (turns_pair .equals .zeroEquals rfl rfl rfl rfl)
  increment x := by
    have hone : Numeral.decimal? "1".toList = some 1 := by decide +kernel
    exact computes_of_turns hf (by decide +kernel) fun s =>
      .definition (by decide) (.seq (.literal hone) (.operation .plus rfl rfl))
  decrement x := by
    have hone : Numeral.decimal? "1".toList = some 1 := by decide +kernel
    exact computes_of_turns hf (by decide +kernel) fun s =>
      .definition (by decide) (.seq (.literal hone) (.operation .minus rfl rfl))
  greater x y := by
    have hless : decide (y < x) = decide (y.toInt < x.toInt) := decide_eq_decide.mpr Int64.lt_iff_toInt_lt
    rw [← hless]
    exact computes_of_turns hf (by decide +kernel) fun s =>
      .definition (by decide) (turns_pair .swap .less rfl rfl rfl rfl)
  negative x := by
    have hless : decide (x < 0) = decide (x.toInt < 0) := decide_eq_decide.mpr Int64.lt_iff_toInt_lt
    rw [← hless]
    exact computes_of_turns hf (by decide +kernel) (turns_negative x)
  absolute x := by
    refine ⟨_, computes_of_turns hf (by decide +kernel) (turns_absolute x), fun hne => ?_, fun hmin => ?_⟩
    · have hint := Int64.lt_iff_toInt_lt (x := x) (y := 0)
      split
      case isTrue hneg =>
        have hlt : x.toInt < 0 := hint.mp hneg
        rw [Word.toInt_neg_of_ne hne]
        omega
      case isFalse hneg =>
        have hle : ¬x.toInt < 0 := fun hlt => hneg (hint.mpr hlt)
        omega
    · rw [hmin]
      decide
  quotient x y hy := by
    refine ⟨x / y, x % y, ?_, ?_, (Word.div_mul_add_mod x y).symm, Word.natAbs_mod_lt x hy,
      Word.sign_mod x y, ?_⟩
    · exact computes_of_turns hf (by decide +kernel) fun s =>
        .definition (by decide) (.seq (turns_divMod hy s) (.seq (turns_nip _ _ s) .empty))
    · exact computes_of_turns hf (by decide +kernel) fun s =>
        .definition (by decide) (.seq (turns_divMod hy s) (.seq (.operation .drop rfl rfl) .empty))
    · rintro rfl rfl
      decide
  zeroDivision x := by
    have hquotient : ("/", Body.ofWords ["/MOD", "NIP"]) ∈ colons := by decide
    have hremainder : ("MOD", Body.ofWords ["/MOD", "DROP"]) ∈ colons := by decide
    exact ⟨stops_of_division hf hquotient x, stops_of_division hf hremainder x⟩

end Blueprint

namespace Image

open Blueprint

/-- At every base at which an image may lie, the installation succeeds, and the words that it has compiled
have the effects that their names promise, on all operands. -/
theorem core_words_have_their_effects {base : Word} (hb : isValidBase base = true) (console : Console) :
    ∃ n img installed, (∀ fuel, n ≤ fuel → install fuel base { console } = (.ok img, installed)) ∧
      installed.state.HasCoreWords := by
  have hf : Free base (size parts) := free_of_isValidBase hb (by decide)
  obtain ⟨n, installed, hinstall, hstate, -⟩ := install_apply hb console
  refine ⟨n, _, installed, hinstall, ?_⟩
  rw [hstate]
  exact hasCoreWords_idle hf

/-- A reference to TUCK at 500, outside the image, is called with a text and a number on the stack. -/
theorem tuck_called_from_outside :
    ∃ n img installed M e m', install n 16 {} = (.ok img, installed) ∧
      installed.state.dictionary.find? "TUCK" = some e ∧
      M = installed.state.memory.insert 500 (.ref e.code) ∧
      Reaches { state := running M ∅ 500 [] [.int 2, .text "a"] } m' ∧
      m'.state = running M ∅ 501 [] [.int 2, .text "a", .int 2] := by
  have hbase : isValidBase 16 = true := by decide
  obtain ⟨n, img, installed, hinstall, hwords⟩ := core_words_have_their_effects hbase {}
  have hinstalled := hinstall n (Nat.le_refl n)
  obtain ⟨e, hfind, hcalls⟩ := hwords.tuck (.text "a") (.int 2)
  have hfree : installed.state.memory[(500 : Word)]? = none := by
    rw [(install_result hinstalled).2.2]
    decide +kernel
  have hunder : installed.state.Underlies (installed.state.memory.insert 500 (.ref e.code)) := by
    intro a c _ hc
    have hne : 500 ≠ a := by
      rintro rfl
      rw [hfree] at hc
      cases hc
    rw [getElem?_insert_ne _ _ hne, hc]
  obtain ⟨M, hM⟩ : ∃ M, M = installed.state.memory.insert 500 (.ref e.code) := ⟨_, rfl⟩
  have hcell : M[(500 : Word)]? = some (.ref e.code) := hM ▸ getElem?_insert_eq _ _ _
  have hshows : Shows (running M ∅ 500 [] [.int 2, .text "a"]) none none
      { state := running M ∅ 500 [] [.int 2, .text "a"] } := ⟨rfl, rfl, nofun⟩
  obtain ⟨m', hreach, hm'⟩ := hcalls M ∅ 500 [] [] none none (hM ▸ hunder) hcell _ hshows
  exact ⟨n, img, installed, M, e, m', hinstalled, hfind, hM, hreach, hm'.state⟩

end Image

end ForthMachine
