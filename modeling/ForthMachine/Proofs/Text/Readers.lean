import ForthMachine.Proofs.Text.Decimal

namespace ForthMachine.Numeral

variable {base acc k : Nat} {c : Char} {cs ds : List Char} {n : Word}

def unsigned (cs : List Char) : List Char := (splitSign cs).2

def NoLeadingZero (ds : List Char) : Prop := ds.head? ≠ some '0' ∨ ds = ['0']

def LeadingZero (ds : List Char) : Prop := ∃ rest, ds = '0' :: rest ∧ AreDigits rest

def BaseMark (ds : List Char) : Prop :=
  ∃ mark ∈ ['b', 'B', 'o', 'O', 'x', 'X'], ∃ d rest, ds = '0' :: mark :: d :: rest

theorem splitBase_of_head (h : ds.head? ≠ some '0') : splitBase ds = (10, ds, false) := by
  unfold splitBase
  split
  · exact absurd rfl h
  · exact absurd rfl h
  · rfl

/-- A zero in front of anything but a base mark is the first digit of an octal number. -/
theorem splitBase_of_zero (h : ¬BaseMark ('0' :: ds)) : splitBase ('0' :: ds) = (8, ds, true) := by
  match ds with
  | [] => rfl
  | [mark] => rfl
  | mark :: d :: rest =>
    have hmark : mark ∉ ['b', 'B', 'o', 'O', 'x', 'X'] := fun hm => h ⟨mark, hm, d, rest, rfl⟩
    simp only [List.mem_cons, List.not_mem_nil, or_false, not_or] at hmark
    simp [splitBase, hmark]

/-- Without underscores there is nothing to separate. -/
theorem wellSeparated_of_notMem (h : '_' ∉ ds) (afterDigit : Bool) : wellSeparated afterDigit ds = true := by
  induction ds generalizing afterDigit with
  | nil => rfl
  | cons c ds ih =>
    rw [List.mem_cons, not_or] at h
    rw [wellSeparated]
    · exact ih h.2 true
    · exact Ne.symm h.1

theorem filter_of_notMem (h : '_' ∉ ds) : ds.filter (· ≠ '_') = ds := by
  rw [List.filter_eq_self]
  intro c hc
  rw [decide_eq_true_eq]
  rintro rfl
  exact h hc

/-- Without underscores the listing reads digits of the base that the numeral announces. -/
theorem prefixed?_of_notMem (hne : unsigned cs ≠ []) {afterDigit : Bool}
    (hs : splitBase (unsigned cs) = (base, ds, afterDigit)) (hu : '_' ∉ ds) :
    prefixed? cs = (readDigits base 0 ds).bind (signed? (splitSign cs).1) := by
  have he : (splitSign cs).2.isEmpty = false := List.isEmpty_eq_false_iff.mpr hne
  have hs' : splitBase (splitSign cs).2 = (base, ds, afterDigit) := hs
  simp only [prefixed?, he, Bool.false_eq_true, ↓reduceIte, hs', wellSeparated_of_notMem hu,
    filter_of_notMem hu]

/-- The reader of decimals, in terms of the sign and what stands behind it. -/
theorem decimal?_eq (hne : unsigned cs ≠ []) :
    decimal? cs = (readDigits 10 0 (unsigned cs)).bind (signed? (splitSign cs).1) := by
  have he : (splitSign cs).2.isEmpty = false := List.isEmpty_eq_false_iff.mpr hne
  simp only [decimal?, he, Bool.false_eq_true, ↓reduceIte, unsigned]

/-- Where no zero announces a base and no underscore groups digits, the two readers are the same. -/
theorem prefixed?_eq_decimal? (hz : NoLeadingZero (unsigned cs)) (hu : '_' ∉ unsigned cs) :
    prefixed? cs = decimal? cs := by
  by_cases hne : unsigned cs = []
  · have he : (splitSign cs).2.isEmpty = true := List.isEmpty_iff.mpr hne
    simp only [prefixed?, decimal?, he, ↓reduceIte]
  · rw [decimal?_eq hne]
    rcases hz with hhead | hzero
    · exact prefixed?_of_notMem hne (splitBase_of_head hhead) hu
    · -- the zero alone announces octal, and nothing is left to be read
      have hbase : splitBase (unsigned cs) = (8, [], true) := by rw [hzero]; rfl
      rw [prefixed?_of_notMem hne hbase List.not_mem_nil, hzero]
      rfl

theorem isDigit_of_digitBelow? (hb : base ≤ 10) (h : digitBelow? base c = some k) : IsDigit c := by
  obtain ⟨hvalue, hlt⟩ := Option.filter_eq_some_iff.mp h
  have hten : digitBelow? 10 c = some k := by
    rw [digitBelow?, Option.filter_eq_some_iff]
    refine ⟨hvalue, ?_⟩
    rw [decide_eq_true_eq] at hlt ⊢
    exact Nat.lt_of_lt_of_le hlt hb
  exact (digitBelow?_eq_some_iff.mp hten).1

theorem isDigit_of_readDigits (hb : base ≤ 10) (h : readDigits base acc ds = some k) :
    ∀ c ∈ ds, IsDigit c := by
  induction ds generalizing acc with
  | nil => exact fun c hc => absurd hc List.not_mem_nil
  | cons c ds ih =>
    rw [readDigits, Option.bind_eq_some_iff] at h
    obtain ⟨d, hd, hrest⟩ := h
    exact List.forall_mem_cons.mpr ⟨isDigit_of_digitBelow? hb hd, ih hrest⟩

/-- Behind the sign of a decimal stand digits. -/
theorem areDigits_of_decimal? (h : decimal? cs = some n) : AreDigits (unsigned cs) := by
  have hne : unsigned cs ≠ [] := by
    intro hnil
    have he : (splitSign cs).2.isEmpty = true := List.isEmpty_iff.mpr hnil
    simp [decimal?, he] at h
  rw [decimal?_eq hne, Option.bind_eq_some_iff] at h
  obtain ⟨k, hk, -⟩ := h
  exact ⟨hne, isDigit_of_readDigits (Nat.le_refl 10) hk⟩

theorem AreDigits.underscore_notMem (h : AreDigits ds) : '_' ∉ ds := by
  intro hmem
  exact absurd (h.2 _ hmem) (by decide)

/-- A zero in front makes no difference to characters that are neither digits nor behind a base mark: no
reader takes them. -/
theorem readers_refuse (hz : unsigned cs = '0' :: ds) (hd : ¬AreDigits ds) (hne : ds ≠ [])
    (hm : ¬BaseMark ('0' :: ds)) (hu : '_' ∉ ds) : decimal? cs = none ∧ prefixed? cs = none := by
  have hnot {base acc : Nat} (hb : base ≤ 10) (xs : List Char) (hsub : ds ⊆ xs) :
      readDigits base acc xs = none := by
    rw [Option.eq_none_iff_forall_ne_some]
    exact fun k hk => hd ⟨hne, fun c hc => isDigit_of_readDigits hb hk c (hsub hc)⟩
  have hnonempty : unsigned cs ≠ [] := by simp [hz]
  have hbase : splitBase (unsigned cs) = (8, ds, true) := by rw [hz, splitBase_of_zero hm]
  constructor
  · rw [decimal?_eq hnonempty, hz, hnot (Nat.le_refl 10) _ (List.subset_cons_self _ _)]
    rfl
  · rw [prefixed?_of_notMem hnonempty hbase hu, hnot (by decide) _ (List.Subset.refl _)]
    rfl

/-- What the readers can differ on. -/
theorem unsigned_of_ne (h : decimal? cs ≠ prefixed? cs) :
    LeadingZero (unsigned cs) ∨ BaseMark (unsigned cs) ∨ '_' ∈ unsigned cs := by
  by_cases hu : '_' ∈ unsigned cs
  · exact .inr (.inr hu)
  by_cases hm : BaseMark (unsigned cs)
  · exact .inr (.inl hm)
  have hzero : ¬NoLeadingZero (unsigned cs) := fun hz => h (prefixed?_eq_decimal? hz hu).symm
  obtain ⟨hhead, halone⟩ := not_or.mp hzero
  obtain ⟨ds, hds⟩ := List.head?_eq_some_iff.mp (not_not.mp hhead)
  have hne : ds ≠ [] := by
    rintro rfl
    exact halone hds
  refine .inl ⟨ds, hds, ?_⟩
  by_contra hd
  rw [hds] at hm hu
  obtain ⟨hdecimal, hprefixed⟩ := readers_refuse hds hd hne hm fun hmem => hu (List.mem_cons_of_mem _ hmem)
  exact h (hdecimal.trans hprefixed.symm)

/-- Programs and listings read plain decimals alike. A decimal that a program reads is read by a listing as
the same number, unless a zero stands in front of other digits; and so the other way round. The readers can
differ only where there is a zero in front of more digits, a base mark or an underscore. -/
theorem readers_agree_on_plain_decimals (s : String) :
    (∀ n, decimal? s.toList = some n → NoLeadingZero (unsigned s.toList) → prefixed? s.toList = some n) ∧
    (∀ n, prefixed? s.toList = some n → AreDigits (unsigned s.toList) →
      NoLeadingZero (unsigned s.toList) → decimal? s.toList = some n) ∧
    (decimal? s.toList ≠ prefixed? s.toList →
      LeadingZero (unsigned s.toList) ∨ BaseMark (unsigned s.toList) ∨ '_' ∈ unsigned s.toList) := by
  refine ⟨fun n hn hz => ?_, fun n hn hd hz => ?_, unsigned_of_ne⟩
  · rw [prefixed?_eq_decimal? hz (areDigits_of_decimal? hn).underscore_notMem]
    exact hn
  · rw [← prefixed?_eq_decimal? hz hd.underscore_notMem]
    exact hn

/-- The lowest number, and zero with a sign, are read alike; with a zero in front, one reader counts in
tens and the other one in eights. -/
theorem lowest_number_is_read_alike :
    (decimal? "-9223372036854775808".toList = some (-9223372036854775808) ∧
      prefixed? "-9223372036854775808".toList = some (-9223372036854775808)) ∧
    (prefixed? "+0".toList = some 0 ∧ decimal? "+0".toList = some 0) ∧
    decimal? "-017".toList = some (-17) ∧ prefixed? "-017".toList = some (-15) ∧
    LeadingZero (unsigned "-017".toList) := by
  have hlowest : decimal? "-9223372036854775808".toList = some (-9223372036854775808) := by decide +kernel
  have hzero : prefixed? "+0".toList = some 0 := by decide +kernel
  have hten : decimal? "-017".toList = some (-17) := by decide +kernel
  have height : prefixed? "-017".toList = some (-15) := by decide +kernel
  have hdigits : AreDigits (unsigned "+0".toList) := by
    have hunsigned : unsigned "+0".toList = ['0'] := by decide +kernel
    rw [hunsigned]
    refine ⟨List.cons_ne_nil _ _, List.forall_mem_singleton.mpr ?_⟩
    exact ⟨by decide, by decide⟩
  have hdiffer : decimal? "-017".toList ≠ prefixed? "-017".toList := by
    rw [hten, height]
    decide
  refine ⟨⟨hlowest, ?_⟩, ⟨hzero, ?_⟩, hten, height, ?_⟩
  · exact (readers_agree_on_plain_decimals _).1 _ hlowest (.inl (by decide +kernel))
  · exact (readers_agree_on_plain_decimals _).2.1 _ hzero hdigits (.inr (by decide +kernel))
  · obtain h | ⟨mark, hmark, d, rest, h⟩ | h := (readers_agree_on_plain_decimals _).2.2 hdiffer
    · exact h
    · have hsecond : mark = '1' := (List.cons.inj (List.cons.inj h).2).1.symm
      subst hsecond
      exact absurd hmark (by decide)
    · exact absurd h (by decide +kernel)

end ForthMachine.Numeral
