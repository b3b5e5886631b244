import OracleMarkets.CurrencyPair
import OracleMarkets.Proofs.Text

/-!
# Normal pairs

Whatever makes a pair from symbols or reads one trims the symbols, puts them in upper case and
checks them.  A pair of that form is normal: making it once more changes nothing.  The text of a
valid pair determines the pair, since neither symbol holds a slash.
-/

namespace OracleMarkets.CurrencyPair

/-! ## Texts of valid pairs -/

/-- The first slash of a ticker is the one between its symbols. -/
theorem splitSlash?_append {base quote : List Char} (h : '/' ∉ base) :
    splitSlash? (base ++ '/' :: quote) = some (base, quote) := by
  induction base with
  | nil => simp [splitSlash?]
  | cons c base ih =>
    simp only [List.mem_cons, not_or] at h
    simp [splitSlash?, Ne.symm h.1, ih h.2]

theorem toList_text (p : CurrencyPair) :
    p.text.toList = p.base.toList ++ '/' :: p.quote.toList := by
  simp [text]

/-- Pairs with the same text are the same if no base holds a slash. -/
theorem eq_of_text_eq_of_notMem {p q : CurrencyPair} (hp : '/' ∉ p.base.toList)
    (hq : '/' ∉ q.base.toList) (h : p.text = q.text) : p = q := by
  have hsplit : some (p.base.toList, p.quote.toList) = some (q.base.toList, q.quote.toList) := by
    rw [← splitSlash?_append hp, ← splitSlash?_append hq, ← toList_text, ← toList_text, h]
  obtain ⟨hbase, hquote⟩ := Prod.mk.inj (Option.some.inj hsplit)
  cases p
  cases q
  rw [CurrencyPair.mk.injEq]
  exact ⟨String.toList_injective hbase, String.toList_injective hquote⟩

/-- Valid pairs with the same text are the same. -/
theorem Valid.eq_of_text_eq {p q : CurrencyPair} (hp : p.Valid) (hq : q.Valid)
    (h : p.text = q.text) : p = q :=
  eq_of_text_eq_of_notMem hp.1.2.1 hq.1.2.1 h

/-- Any pair with the text of a valid pair is that pair. -/
theorem Valid.eq_of_text {p n : CurrencyPair} (hn : n.Valid) (h : p.text = n.text) : p = n := by
  -- The text of `n` holds one slash, so the base of `p` holds none.
  have hbase : '/' ∉ p.base.toList := by
    intro hmem
    have hcount : p.text.toList.count '/' = n.text.toList.count '/' := by rw [h]
    rw [toList_text, toList_text, List.count_append, List.count_append, List.count_cons_self,
      List.count_cons_self, List.count_eq_zero.2 hn.1.2.1, List.count_eq_zero.2 hn.2.1.2.1]
        at hcount
    have hpos := List.count_pos_iff.2 hmem
    omega
  exact eq_of_text_eq_of_notMem hbase hn.1.2.1 h

/-! ## Normal pairs -/

/-- A symbol is normal if it is valid and its letters are in upper case. -/
structure NormalSymbol (s : String) : Prop where
  valid : ValidSymbol s
  upper_eq : Text.upper s = s

/-- A pair is normal if it is valid and its letters are in upper case. -/
structure Normal (p : CurrencyPair) : Prop where
  base : NormalSymbol p.base
  quote : NormalSymbol p.quote
  ne : p.base ≠ p.quote

theorem Normal.valid {p : CurrencyPair} (h : p.Normal) : p.Valid :=
  ⟨h.base.valid, h.quote.valid, h.ne⟩

theorem Valid.inverted {p : CurrencyPair} (h : p.Valid) : p.inverted.Valid :=
  ⟨h.2.1, h.1, h.2.2.symm⟩

theorem Normal.inverted {p : CurrencyPair} (h : p.Normal) : p.inverted.Normal :=
  ⟨h.quote, h.base, Ne.symm h.ne⟩

/-- Normal symbols make a pair as they are. -/
theorem ofSymbols_of_normal {base quote : String} (hb : NormalSymbol base)
    (hq : NormalSymbol quote) : ofSymbols base quote = ⟨base, quote⟩ := by
  rw [ofSymbols, Text.trim_eq_self hb.valid.2.2, Text.trim_eq_self hq.valid.2.2, hb.upper_eq,
    hq.upper_eq]

/-- The case of the symbols makes no difference to the pair. -/
@[simp] theorem ofSymbols_upper (base quote : String) :
    ofSymbols (Text.upper base) (Text.upper quote) = ofSymbols base quote := by
  simp only [ofSymbols, Text.trim_upper, Text.upper_upper]

/-- A pair that is made from symbols is normal if it is valid. -/
theorem normal_of_isValid {base quote : String} (h : (ofSymbols base quote).isValid = true) :
    (ofSymbols base quote).Normal := by
  obtain ⟨hb, hq, hne⟩ := isValid_iff.1 h
  exact ⟨⟨hb, Text.upper_upper _⟩, ⟨hq, Text.upper_upper _⟩, hne⟩

/-- The normal pairs are the valid ones that are made from symbols. -/
theorem normal_iff {p : CurrencyPair} :
    p.Normal ↔ p.Valid ∧ ∃ base quote, p = ofSymbols base quote := by
  constructor
  · intro h
    exact ⟨h.valid, p.base, p.quote, (ofSymbols_of_normal h.base h.quote).symm⟩
  · rintro ⟨hv, base, quote, rfl⟩
    exact normal_of_isValid (isValid_iff.2 hv)

/-! ## Reading pairs -/

/-- A pair that is read from a text is normal. -/
theorem normal_of_ofText? {s : String} {p : CurrencyPair} (h : ofText? s = some p) : p.Normal := by
  simp only [ofText?, Option.bind_eq_bind, Option.bind_eq_some_iff] at h
  obtain ⟨⟨base, quote⟩, -, h⟩ := h
  split at h
  · next hv =>
    rw [← Option.some.inj h]
    exact normal_of_isValid hv
  · cases h

/-- A pair that is read from a record is normal. -/
theorem normal_of_ofEntries? {entries : List (Key × Value)} {p : CurrencyPair}
    (h : ofEntries? entries = some p) : p.Normal := by
  simp only [ofEntries?, Option.bind_eq_bind, Option.bind_eq_some_iff] at h
  obtain ⟨fs, -, base, -, quote, -, h⟩ := h
  split at h
  · next hv =>
    rw [← Option.some.inj h]
    exact normal_of_isValid (Bool.and_eq_true_iff.1 hv).1
  · cases h

/-- A pair that is read from a document is normal. -/
theorem normal_of_decode? {v : Value} {p : CurrencyPair} (h : decode? v = some p) : p.Normal := by
  unfold decode? at h
  split at h
  · exact normal_of_ofEntries? h
  · obtain ⟨s, -, hs⟩ := Option.bind_eq_some_iff.1 h
    exact normal_of_ofText? hs

end OracleMarkets.CurrencyPair
