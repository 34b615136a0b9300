import ForthMachine.Proofs.Dictionary.Sameness
import ForthMachine.Proofs.Text.Decoding
import ForthMachine.Snapshot

/-!
A state can be read off the text in which it is written out. The text is a sequence of lines; the line that
announces memory is the first one without an entry, since every entry shows the sign between its name and
its address. In a line the parts are told apart by what they cannot contain: a name ends at the last sign
`@`, an address in memory at the first colon, and a cell ends at the blank after it, which for quoted cells
is the one behind the closing quote mark.
-/

namespace ForthMachine

section Separation

variable {α : Type} {x : α} {a b u v : List α}

def Ends (x : α) (u : List α) : Prop := ∀ y, u.head? = some y → y = x

theorem ends_nil : Ends x [] := by simp [Ends]

theorem ends_cons : Ends x (x :: u) := by simp [Ends]

/-- The part in front of a separator can be told from the rest. -/
theorem append_inj_of_notMem (ha : x ∉ a) (hb : x ∉ b) (hu : Ends x u) (hv : Ends x v)
    (h : a ++ u = b ++ v) : a = b ∧ u = v := by
  induction a generalizing b with
  | nil =>
    cases b with
    | nil => exact ⟨rfl, h⟩
    | cons y b =>
      obtain rfl : y = x := hu y (by rw [List.nil_append] at h; rw [h]; rfl)
      exact absurd List.mem_cons_self hb
  | cons y a ih =>
    cases b with
    | nil =>
      obtain rfl : y = x := hv y (by rw [List.nil_append] at h; rw [← h]; rfl)
      exact absurd List.mem_cons_self ha
    | cons z b =>
      rw [List.cons_append, List.cons_append, List.cons.injEq] at h
      rw [List.mem_cons, not_or] at ha hb
      obtain ⟨rfl, hrest⟩ := ih ha.2 hb.2 h.2
      exact ⟨by rw [h.1], hrest⟩

/-- The part behind the last separator can be told from the rest. -/
theorem append_inj_of_notMem_right (hu : x ∉ u) (hv : x ∉ v) (h : a ++ x :: u = b ++ x :: v) :
    a = b ∧ u = v := by
  have hreverse : u.reverse ++ x :: a.reverse = v.reverse ++ x :: b.reverse := by
    simpa using congrArg List.reverse h
  obtain ⟨huv, hab⟩ := append_inj_of_notMem (by simpa using hu) (by simpa using hv) ends_cons ends_cons
    hreverse
  exact ⟨List.reverse_injective (List.cons.inj hab).2, List.reverse_injective huv⟩

/-- Lines, each with its line feed. -/
theorem flatMap_newline_inj {ls ms : List (List Char)} (hl : ∀ l ∈ ls, '\n' ∉ l) (hm : ∀ l ∈ ms, '\n' ∉ l)
    (h : ls.flatMap (· ++ ['\n']) = ms.flatMap (· ++ ['\n'])) : ls = ms := by
  induction ls generalizing ms with
  | nil =>
    cases ms with
    | nil => rfl
    | cons m ms => simp at h
  | cons l ls ih =>
    cases ms with
    | nil => simp at h
    | cons m ms =>
      rw [List.forall_mem_cons] at hl hm
      simp only [List.flatMap_cons, List.append_assoc, List.singleton_append] at h
      obtain ⟨rfl, hrest⟩ := append_inj_of_notMem hl.1 hm.1 ends_cons ends_cons h
      rw [ih hl.2 hm.2 (List.cons.inj hrest).2]

theorem map_inj_on {β : Type} {f : α → β} {as bs : List α}
    (hf : ∀ a ∈ as, ∀ b ∈ bs, f a = f b → a = b) (h : as.map f = bs.map f) : as = bs := by
  induction as generalizing bs with
  | nil =>
    cases bs with
    | nil => rfl
    | cons b bs => cases h
  | cons a as ih =>
    cases bs with
    | nil => cases h
    | cons b bs =>
      rw [List.map_cons, List.map_cons, List.cons.injEq] at h
      rw [hf a (by simp) b (by simp) h.1, ih (fun a ha b hb => hf a (by simp [ha]) b (by simp [hb])) h.2]

end Separation

namespace Numeral

theorem blank_notMem_digits (i : Int) : ' ' ∉ digits i := notMem_digits (by decide)

theorem newline_notMem_digits (i : Int) : '\n' ∉ digits i := notMem_digits (by decide)

end Numeral

namespace Builtin

theorem ofName?_name (b : Builtin) : ofName? b.name = some b := by
  cases b <;> decide

/-- No two built-in words have the same name. -/
theorem name_injective : Function.Injective name := by
  intro b c h
  have hfound := congrArg ofName? h
  rw [ofName?_name, ofName?_name] at hfound
  exact Option.some.inj hfound

theorem notMem_name (b : Builtin) : ' ' ∉ b.name.toList ∧ '\n' ∉ b.name.toList := by
  cases b <;> decide

end Builtin

namespace Cell

open Text

/-- The characters are valid code points and the primitives are built in. -/
def IsLegible : Cell → Prop
  | char code => 0 ≤ code.toInt ∧ code.toInt.toNat.isValidChar
  | prim p => ∃ b, p = some (.builtin b)
  | _ => True

def tagOf (c : Char) : Nat :=
  if c = 'n' then 0
  else if c = '\x27' then 2
  else if c = '"' then 3
  else if c = '@' then 4
  else if c = '<' then 5
  else if c = '&' then 6
  else 1

theorem toList_render_addr (a : Word) : (addr a).render.toList = '@' :: Numeral.digits a.toInt := by
  simp [render]

theorem toList_render_ref (code : Word) : (ref code).render.toList = '&' :: Numeral.digits code.toInt := by
  simp [render]

theorem toList_render_builtin (b : Builtin) :
    (prim (some (.builtin b))).render.toList = '<' :: (b.name.toList ++ ['>']) := by
  simp [render, Primitive.name]

theorem toList_render_text (s : String) :
    (text s).render.toList = '"' :: (s.toList.flatMap (escape '"') ++ ['"']) := by
  simp [render, quote]

theorem toList_render_char (code : Int32) :
    (char code).render.toList = '\x27' :: (escape '\x27' (charOfCode code.toInt) ++ ['\x27']) := by
  simp [render, quoteCode]

theorem tagOf_digits (i : Int) : ∃ x xs, Numeral.digits i = x :: xs ∧ tagOf x = 1 := by
  obtain ⟨x, xs, hx⟩ := List.exists_cons_of_ne_nil (Numeral.digits_ne_nil i)
  refine ⟨x, xs, hx, ?_⟩
  have hdigit : ∀ d < 10, tagOf d.digitChar = 1 := by decide
  rcases Numeral.mem_digits (hx ▸ List.mem_cons_self) with rfl | ⟨d, hd, rfl⟩
  · rfl
  · exact hdigit d hd

/-- The first character of a cell tells its tag. -/
theorem tagOf_render (c : Cell) : ∃ x xs, c.render.toList = x :: xs ∧ tagOf x = c.tag := by
  cases c with
  | nil => exact ⟨'n', ['i', 'l'], by simp [render], rfl⟩
  | int n =>
    obtain ⟨x, xs, hx, htag⟩ := tagOf_digits n.toInt
    exact ⟨x, xs, by simp [render, hx], htag⟩
  | char code => exact ⟨_, _, toList_render_char code, rfl⟩
  | text s => exact ⟨_, _, toList_render_text s, rfl⟩
  | addr a => exact ⟨_, _, toList_render_addr a, rfl⟩
  | prim p =>
    cases p with
    | none => exact ⟨'<', "prim ?>".toList, by simp [render], rfl⟩
    | some p => exact ⟨'<', p.name.toList ++ ['>'], by simp [render], rfl⟩
  | ref code => exact ⟨_, _, toList_render_ref code, rfl⟩

/-- Code points that are characters are told apart by them. -/
theorem charOfCode_inj {n m : Int} (hn : 0 ≤ n ∧ n.toNat.isValidChar) (hm : 0 ≤ m ∧ m.toNat.isValidChar)
    (h : charOfCode n = charOfCode m) : n = m := by
  have hvalue {k : Nat} (hk : k.isValidChar) : (Char.ofNat k).toNat = k := by
    rw [Char.ofNat, dif_pos hk]
    rfl
  have hnat := congrArg Char.toNat h
  rw [charOfCode, charOfCode, if_pos hn, if_pos hm, hvalue hn.2, hvalue hm.2] at hnat
  omega

/-- A cell can be read off the start of a text, if a blank or nothing comes after it. -/
theorem render_append_inj {c d : Cell} {u v : List Char} (hc : c.IsLegible) (hd : d.IsLegible)
    (hu : Ends ' ' u) (hv : Ends ' ' v) (h : c.render.toList ++ u = d.render.toList ++ v) :
    c = d ∧ u = v := by
  have htag : c.tag = d.tag := by
    obtain ⟨x, xs, hx, hxtag⟩ := tagOf_render c
    obtain ⟨y, ys, hy, hytag⟩ := tagOf_render d
    rw [hx, hy, List.cons_append, List.cons_append, List.cons.injEq] at h
    rw [← hxtag, ← hytag, h.1]
  have hnumber {n m : Word} (h : Numeral.digits n.toInt ++ u = Numeral.digits m.toInt ++ v) :
      n = m ∧ u = v := by
    obtain ⟨hdigits, hrest⟩ := append_inj_of_notMem (Numeral.blank_notMem_digits _)
      (Numeral.blank_notMem_digits _) hu hv h
    exact ⟨Numeral.toInt_digits_inj hdigits, hrest⟩
  cases c <;> cases d <;> first | cases htag; done | skip
  case nil.nil => exact ⟨rfl, List.append_cancel_left h⟩
  case int.int n m =>
    simp only [render, Numeral.toList_render] at h
    obtain ⟨rfl, hrest⟩ := hnumber h
    exact ⟨rfl, hrest⟩
  case addr.addr n m =>
    rw [toList_render_addr, toList_render_addr] at h
    obtain ⟨rfl, hrest⟩ := hnumber (List.cons.inj h).2
    exact ⟨rfl, hrest⟩
  case ref.ref n m =>
    rw [toList_render_ref, toList_render_ref] at h
    obtain ⟨rfl, hrest⟩ := hnumber (List.cons.inj h).2
    exact ⟨rfl, hrest⟩
  case char.char n m =>
    rw [toList_render_char, toList_render_char] at h
    simp only [List.cons_append, List.append_assoc, List.cons.injEq, true_and] at h
    obtain ⟨hchar, hrest⟩ := escape_append_inj (.inr rfl) h
    rw [Int32.toInt_inj.mp (charOfCode_inj hc hd hchar)]
    exact ⟨rfl, (List.cons.inj hrest).2⟩
  case text.text s t =>
    rw [toList_render_text, toList_render_text] at h
    simp only [List.cons_append, List.append_assoc, List.cons.injEq, true_and] at h
    obtain ⟨htext, hrest⟩ := flatMap_escape_append_inj (.inl rfl) h
    rw [String.toList_inj.mp htext]
    exact ⟨rfl, hrest⟩
  case prim.prim p q =>
    obtain ⟨b, rfl⟩ := hc
    obtain ⟨b', rfl⟩ := hd
    have hblank (b : Builtin) : ' ' ∉ '<' :: (b.name.toList ++ ['>']) := by
      simp [b.notMem_name.1]
    rw [toList_render_builtin, toList_render_builtin] at h
    obtain ⟨hname, hrest⟩ := append_inj_of_notMem (hblank b) (hblank b') hu hv h
    have hsame : b = b' := by
      apply Builtin.name_injective
      apply String.toList_inj.mp
      simpa using hname
    exact ⟨by rw [hsame], hrest⟩

theorem newline_notMem_render {c : Cell} (hc : c.IsLegible) : '\n' ∉ c.render.toList := by
  cases c with
  | nil => simp [render]
  | int n => simp [render, Numeral.newline_notMem_digits]
  | char code =>
    rw [toList_render_char]
    simp [newline_notMem_escape (.inr rfl)]
  | text s =>
    rw [toList_render_text]
    simp [newline_notMem_escape (.inl rfl)]
  | addr a => simp [toList_render_addr, Numeral.newline_notMem_digits]
  | prim p =>
    obtain ⟨b, rfl⟩ := hc
    rw [toList_render_builtin]
    simp [b.notMem_name.2]
  | ref code => simp [toList_render_ref, Numeral.newline_notMem_digits]

/-- Cells in a line, each after a blank. -/
theorem flatMap_render_inj {cs ds : List Cell} (hc : ∀ c ∈ cs, c.IsLegible) (hd : ∀ d ∈ ds, d.IsLegible)
    (h : cs.flatMap (fun c => ' ' :: c.render.toList) = ds.flatMap (fun c => ' ' :: c.render.toList)) :
    cs = ds := by
  have hends (cs : List Cell) : Ends ' ' (cs.flatMap fun c => ' ' :: c.render.toList) := by
    cases cs with
    | nil => exact ends_nil
    | cons c cs => exact ends_cons
  induction cs generalizing ds with
  | nil =>
    cases ds with
    | nil => rfl
    | cons d ds => cases h
  | cons c cs ih =>
    cases ds with
    | nil => cases h
    | cons d ds =>
      rw [List.forall_mem_cons] at hc hd
      simp only [List.flatMap_cons, List.cons_append, List.cons.injEq, true_and] at h
      obtain ⟨rfl, hrest⟩ := render_append_inj hc.1 hd.1 (hends cs) (hends ds) h
      rw [ih hc.2 hd.2 hrest]

end Cell

namespace Entry

def flagText (f : Flags) : List Char :=
  (if f.immediate then " immediate".toList else []) ++ if f.hidden then " hidden".toList else []

/-- The flags can be read off their text. -/
theorem flagText_injective : Function.Injective flagText := by
  rintro ⟨i, h⟩ ⟨i', h'⟩ heq
  revert heq
  cases i <;> cases h <;> cases i' <;> cases h' <;> decide

/-- Behind the address of an entry comes nothing or a blank. -/
theorem flagText_ends (f : Flags) : Ends ' ' (flagText f) := by
  obtain ⟨i, h⟩ := f
  cases i <;> cases h <;> simp [flagText, Ends]

/-- The flags contain no sign that ends a name or a line. -/
theorem notMem_flagText (f : Flags) : '@' ∉ flagText f ∧ '\n' ∉ flagText f := by
  obtain ⟨i, h⟩ := f
  cases i <;> cases h <;> decide

theorem toList_render (e : Entry) :
    e.render.toList = e.name.toList ++ '@' :: (Numeral.digits e.code.toInt ++ flagText e.flags) := by
  obtain ⟨name, code, ⟨i, h⟩⟩ := e
  cases i <;> cases h <;> simp [render, flagText]

/-- The name ends at the last sign in front of an address, whatever the name looks like. -/
theorem render_injective : Function.Injective render := by
  intro e e' h
  have hsign (e : Entry) : '@' ∉ Numeral.digits e.code.toInt ++ flagText e.flags := by
    rw [List.mem_append, not_or]
    exact ⟨Numeral.notMem_digits (by decide), (notMem_flagText e.flags).1⟩
  have hlist := congrArg String.toList h
  rw [toList_render, toList_render] at hlist
  obtain ⟨hname, hrest⟩ := append_inj_of_notMem_right (hsign e) (hsign e') hlist
  obtain ⟨hcode, hflags⟩ := append_inj_of_notMem (Numeral.blank_notMem_digits _)
    (Numeral.blank_notMem_digits _) (flagText_ends _) (flagText_ends _) hrest
  obtain ⟨name, code, flags⟩ := e
  obtain ⟨name', code', flags'⟩ := e'
  rw [Entry.mk.injEq]
  exact ⟨String.toList_inj.mp hname, Numeral.toInt_digits_inj hcode, flagText_injective hflags⟩

theorem newline_notMem_render {e : Entry} (he : '\n' ∉ e.name.toList) : '\n' ∉ e.render.toList := by
  simp [toList_render, he, Numeral.newline_notMem_digits, (notMem_flagText e.flags).2]

/-- No entry looks like the line that announces memory. -/
theorem render_ne_memory (e : Entry) : e.render.toList ≠ "memory:".toList := by
  intro h
  have hsign : '@' ∈ "memory:".toList := by
    rw [← h, toList_render]
    simp
  exact absurd hsign (by decide)

end Entry

namespace Memory

open Numeral

theorem toList_renderAddress (a : Word) :
    ∃ k, (renderAddress a).toList = List.replicate k ' ' ++ digits a.toInt :=
  ⟨_, String.toList_ofList⟩

theorem notMem_renderAddress {c : Char} (hc : c ≠ ' ') (hd : c ≠ '-' ∧ ∀ d < 10, c ≠ d.digitChar)
    (a : Word) : c ∉ (renderAddress a).toList := by
  obtain ⟨k, hk⟩ := toList_renderAddress a
  rw [hk, List.mem_append, not_or]
  exact ⟨fun h => hc (List.eq_of_mem_replicate h), notMem_digits hd⟩

/-- An address can be read although it is filled up with blanks. -/
theorem renderAddress_injective : Function.Injective renderAddress := by
  have hstrip (a : Word) : (renderAddress a).toList.filter (· ≠ ' ') = digits a.toInt := by
    obtain ⟨k, hk⟩ := toList_renderAddress a
    have hkeep : (digits a.toInt).filter (· ≠ ' ') = digits a.toInt := by
      rw [List.filter_eq_self]
      intro c hc
      have hne : c ≠ ' ' := fun heq => blank_notMem_digits a.toInt (heq ▸ hc)
      simpa using hne
    rw [hk, List.filter_append, hkeep]
    simp
  intro a b h
  apply toInt_digits_inj
  rw [← hstrip a, ← hstrip b, h]

def line (a : Word) (c : Cell) : List Char := (renderAddress a).toList ++ ':' :: ' ' :: c.render.toList

/-- A line of memory tells its address and its cell. -/
theorem line_inj {a b : Word} {c d : Cell} (hc : c.IsLegible) (hd : d.IsLegible) (h : line a c = line b d) :
    a = b ∧ c = d := by
  have hcolon (a : Word) : ':' ∉ (renderAddress a).toList := notMem_renderAddress (by decide) (by decide) a
  obtain ⟨haddress, hrest⟩ := append_inj_of_notMem (hcolon a) (hcolon b) ends_cons ends_cons h
  have hcells : c.render.toList ++ [] = d.render.toList ++ [] := by simpa using hrest
  obtain ⟨rfl, -⟩ := Cell.render_append_inj hc hd ends_nil ends_nil hcells
  exact ⟨renderAddress_injective (String.toList_inj.mp haddress), rfl⟩

theorem newline_notMem_line (a : Word) {c : Cell} (hc : c.IsLegible) : '\n' ∉ line a c := by
  simp [line, notMem_renderAddress (c := '\n') (by decide) (by decide) a, Cell.newline_notMem_render hc]

end Memory

namespace State

open Numeral

/-- The names have no line feed, and the cells are legible. -/
structure IsLegible (st : State) : Prop where
  names : ∀ e ∈ st.dictionary.entries.toList, '\n' ∉ e.name.toList
  stack : ∀ c ∈ st.stack, c.IsLegible
  memory : ∀ (a : Word) (c : Cell), st.memory[a]? = some c → c.IsLegible

def pointerLine (st : State) : List Char :=
  "IP ".toList ++ (digits st.ip.toInt ++ (" NIP ".toList ++ digits st.nip.toInt))

def cellLine (heading : String) (cells : List Cell) : List Char :=
  heading.toList ++ cells.flatMap fun c => ' ' :: c.render.toList

def lines (st : State) : List (List Char) :=
  [st.pointerLine, cellLine "stack:" st.stack, cellLine "rstack:" (st.returns.map .int),
    "dictionary:".toList] ++
    (st.dictionary.listing.map (·.render.toList) ++
      "memory:".toList :: st.memory.toList.map fun (a, c) => Memory.line a c)

theorem toList_dump (st : State) : st.dump.toList = st.lines.flatMap (· ++ ['\n']) := by
  have hfeed : "\n".toList = ['\n'] := by decide
  have hblank : " ".toList = [' '] := by decide
  have hcolon : ": ".toList = [':', ' '] := by decide
  have hdictionary : "dictionary:\n".toList = "dictionary:".toList ++ ['\n'] := by decide
  have hmemory : "memory:\n".toList = "memory:".toList ++ ['\n'] := by decide
  unfold dump
  simp only [lines, pointerLine, cellLine, Dictionary.dump, Memory.dump, Memory.line, Cell.render,
    String.toList_append, String.toList_join, Numeral.toList_render, List.flatMap_map, List.flatMap_append,
    List.flatMap_cons, List.append_assoc, List.cons_append, List.nil_append, hfeed,
    hblank, hcolon, hdictionary, hmemory]

variable {s t st : State}

theorem IsLegible.listing (h : st.IsLegible) {e : Entry} (he : e ∈ st.dictionary.listing) :
    '\n' ∉ e.name.toList := by
  obtain ⟨name, -, hnamed⟩ := List.mem_flatMap.mp he
  exact h.names e (Dictionary.mem_named.mp hnamed).1

theorem IsLegible.cell (h : st.IsLegible) {x : Word × Cell} (hx : x ∈ st.memory.toList) : x.2.IsLegible :=
  h.memory x.1 x.2 (Std.ExtTreeMap.mem_toList_iff_getElem?_eq_some.mp hx)

theorem newline_notMem_cellLine {heading : String} {cells : List Cell} (hh : '\n' ∉ heading.toList)
    (hc : ∀ c ∈ cells, c.IsLegible) : '\n' ∉ cellLine heading cells := by
  rw [cellLine, List.mem_append, not_or]
  refine ⟨hh, fun h => ?_⟩
  obtain ⟨c, hmem, hline⟩ := List.mem_flatMap.mp h
  rw [List.mem_cons] at hline
  rcases hline with hline | hline
  · exact absurd hline (by decide)
  · exact Cell.newline_notMem_render (hc c hmem) hline

theorem legible_returns (rs : Stack Word) : ∀ c ∈ rs.map Cell.int, c.IsLegible := by
  intro c hc
  obtain ⟨r, -, rfl⟩ := List.mem_map.mp hc
  trivial

/-- No line of a legible state is broken in two. -/
theorem IsLegible.lines (h : st.IsLegible) : ∀ l ∈ st.lines, '\n' ∉ l := by
  have hpointers : '\n' ∉ st.pointerLine := by
    simp [pointerLine, newline_notMem_digits]
  have hstack : '\n' ∉ cellLine "stack:" st.stack := newline_notMem_cellLine (by decide) h.stack
  have hreturns : '\n' ∉ cellLine "rstack:" (st.returns.map .int) :=
    newline_notMem_cellLine (by decide) (legible_returns _)
  have hdictionary : '\n' ∉ "dictionary:".toList := by decide
  have hmemory : '\n' ∉ "memory:".toList := by decide
  simp only [State.lines, List.forall_mem_append, List.forall_mem_cons, List.forall_mem_map]
  refine ⟨⟨hpointers, hstack, hreturns, hdictionary, by simp⟩, ?_, hmemory, ?_⟩
  · exact fun e he => Entry.newline_notMem_render (h.listing he)
  · exact fun x hx => Memory.newline_notMem_line x.1 (h.cell hx)

theorem pointerLine_inj (h : s.pointerLine = t.pointerLine) : s.ip = t.ip ∧ s.nip = t.nip := by
  have hblank (w : Word) : Ends ' ' (" NIP ".toList ++ digits w.toInt) := by
    simp [Ends]
  have hrest := List.append_cancel_left h
  obtain ⟨hip, hnip⟩ := append_inj_of_notMem (blank_notMem_digits _) (blank_notMem_digits _)
    (hblank s.nip) (hblank t.nip) hrest
  exact ⟨toInt_digits_inj hip, toInt_digits_inj (List.append_cancel_left hnip)⟩

/-- The lines of a state tell everything by which states are compared. -/
theorem sameAs_of_lines (hs : s.IsLegible) (ht : t.IsLegible) (h : s.lines = t.lines) :
    s.sameAs t = true := by
  simp only [State.lines, List.cons_append, List.cons.injEq, List.nil_append, true_and] at h
  obtain ⟨hpointers, hstack, hreturns, htables⟩ := h
  obtain ⟨hip, hnip⟩ := pointerLine_inj hpointers
  have hstack' := Cell.flatMap_render_inj hs.stack ht.stack (List.append_cancel_left hstack)
  have hreturns' : s.returns = t.returns := by
    have hcells := Cell.flatMap_render_inj (legible_returns _) (legible_returns _)
      (List.append_cancel_left hreturns)
    exact (List.map_inj_right fun _ _ h => Cell.int.inj h).mp hcells
  -- no entry looks like the heading of memory
  have hheading (st : State) : "memory:".toList ∉ st.dictionary.listing.map (·.render.toList) := by
    intro hmem
    obtain ⟨e, -, he⟩ := List.mem_map.mp hmem
    exact e.render_ne_memory he
  obtain ⟨hentries, hmemory⟩ := append_inj_of_notMem (hheading s) (hheading t) ends_cons ends_cons htables
  have hlisting : s.dictionary.listing = t.dictionary.listing :=
    (List.map_inj_right fun _ _ h => Entry.render_injective (String.toList_inj.mp h)).mp hentries
  have hcells : s.memory.toList = t.memory.toList := by
    refine map_inj_on (fun x hx y hy h => ?_) (List.cons.inj hmemory).2
    obtain ⟨ha, hc⟩ := Memory.line_inj (hs.cell hx) (ht.cell hy) h
    exact Prod.ext ha hc
  simp [sameAs, Dictionary.sameAs, hip, hnip, hstack', hreturns', hlisting, hcells]

/-- States that are the same are written out alike. -/
theorem dump_eq_of_sameAs (h : s.sameAs t = true) : s.dump = t.dump := by
  simp only [sameAs, Dictionary.sameAs, Bool.and_eq_true, decide_eq_true_eq] at h
  obtain ⟨⟨⟨⟨⟨hip, hnip⟩, hstack⟩, hreturns⟩, hlisting⟩, hmemory⟩ := h
  unfold dump Dictionary.dump Memory.dump
  rw [hip, hnip, hstack, hreturns, hlisting, hmemory]

/-- Legible states are written out alike exactly if they are the same. -/
theorem dump_eq_iff (hs : s.IsLegible) (ht : t.IsLegible) : s.dump = t.dump ↔ s.sameAs t = true := by
  refine ⟨fun h => sameAs_of_lines hs ht ?_, dump_eq_of_sameAs⟩
  have hlist := congrArg String.toList h
  rw [toList_dump, toList_dump] at hlist
  exact flatMap_newline_inj hs.lines ht.lines hlist

end State

namespace LineDiff

/-- Comparing the two texts gives at least one inserted or deleted line. -/
def Reports (old new : List Char) : Prop :=
  let table := distinct (lines old ++ lines new)
  ∃ e ∈ Diff.compare (encode table (lines old)) (encode table (lines new)),
    e.operation ≠ .keep ∧ decode table e.piece ≠ []

instance (old new : List Char) : Decidable (Reports old new) :=
  inferInstanceAs (Decidable (∃ e ∈ Diff.compare (encode (distinct (lines old ++ lines new)) (lines old))
    (encode (distinct (lines old ++ lines new)) (lines new)),
    e.operation ≠ .keep ∧ decode (distinct (lines old ++ lines new)) e.piece ≠ []))

/-- If the comparison has an edit, the text that shows it is not empty. -/
theorem compare_ne_empty {old new : List Char} (h : Reports old new) : compare old new ≠ "" := by
  obtain ⟨e, he, hop, hlines⟩ := h
  obtain ⟨line, rest, hdecode⟩ := List.exists_cons_of_ne_nil hlines
  intro hempty
  have hlist := congrArg String.toList hempty
  rw [compare, String.toList_ofList, String.toList_empty, List.flatMap_eq_nil_iff] at hlist
  have hnone := hlist e he
  unfold render at hnone
  split at hnone
  · rename_i hkeep
    exact hop hkeep
  · rw [hdecode] at hnone
    cases hnone
  · rw [hdecode] at hnone
    cases hnone

end LineDiff

namespace State

/-- States without line feeds in their names, with valid characters and with built-in primitives alone are
written out in the same way exactly if they compare equal. The difference between two such states is empty
exactly if they do, provided that comparing two texts that differ shows a line. -/
theorem text_determines_state (s t : State) (hs : s.IsLegible) (ht : t.IsLegible) :
    (s.dump = t.dump ↔ s.sameAs t = true) ∧
    ((s.dump ≠ t.dump → LineDiff.Reports s.dump.toList t.dump.toList) →
      (s.diff t = "" ↔ s.sameAs t = true)) := by
  refine ⟨dump_eq_iff hs ht, fun hreports => ?_⟩
  unfold diff
  split
  · rename_i hsame
    exact iff_of_true rfl hsame
  · rename_i hsame
    have hdiffer : s.dump ≠ t.dump := fun h => hsame ((dump_eq_iff hs ht).mp h)
    exact iff_of_false (LineDiff.compare_ne_empty (hreports hdiffer)) hsame

end State

namespace LookAlikes

def first : State where
  dictionary := .ofList [{ name := "A", code := 1, flags := { immediate := true } }]
  stack := [.text "1 2"]

def second : State where
  dictionary := .ofList [{ name := "A@1 immediate", code := 1 }]
  stack := [.int 1, .int 2]

theorem legible_first : first.IsLegible where
  names := by decide +kernel
  stack := by simp [first, Cell.IsLegible]
  memory := by simp [first]

theorem legible_second : second.IsLegible where
  names := by decide +kernel
  stack := by simp [second, Cell.IsLegible]
  memory := by simp [second]

end LookAlikes

namespace State

open LookAlikes

/-- Look-alikes are written out differently, and the lines that differ are shown. -/
theorem look_alikes_are_told_apart : first.IsLegible ∧ second.IsLegible ∧ first.dump ≠ second.dump ∧
    LineDiff.Reports first.dump.toList second.dump.toList ∧ first.diff second ≠ "" := by
  obtain ⟨hdump, hdiff⟩ := text_determines_state first second legible_first legible_second
  have hsame : ¬first.sameAs second = true := by decide +kernel
  have hreports : LineDiff.Reports first.dump.toList second.dump.toList := by decide +kernel
  refine ⟨legible_first, legible_second, fun h => hsame (hdump.mp h), hreports, fun h => ?_⟩
  exact hsame ((hdiff fun _ => hreports).mp h)

end State

end ForthMachine
