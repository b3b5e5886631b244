import OracleMarkets.Proofs.CurrencyPair
import OracleMarkets.Proofs.Rearrangement

/-!
# How pairs are spelled

A pair is spelled as a text with one slash between its symbols, or as a record of them.  Blanks
around a symbol and the case of its letters do not matter in either spelling, so both make the pair
`ofSymbols? base quote` of the same two texts.

A ticker is trimmed as a whole and split at its first slash, and only its symbols are tested for
another slash.  That comes to the same as asking for one slash in all
(`CurrencyPair.ofText?_append`).
-/

namespace OracleMarkets.CurrencyPair

/-! ## Pairs of symbols -/

/-- The pair of two symbols, each trimmed and in upper case, if it is valid. -/
def ofSymbols? (base quote : String) : Option CurrencyPair :=
  if (ofSymbols base quote).isValid then some (ofSymbols base quote) else none

/-- Two symbols make a pair exactly if the trimmed and capitalized ones are valid. -/
theorem ofSymbols?_eq_some_iff {base quote : String} {p : CurrencyPair} :
    ofSymbols? base quote = some p ↔ (ofSymbols base quote).Valid ∧ ofSymbols base quote = p := by
  rw [ofSymbols?, Option.ite_none_right_eq_some, isValid_iff, Option.some.injEq]

theorem ofSymbols?_eq_none {base quote : String} (h : ¬(ofSymbols base quote).Valid) :
    ofSymbols? base quote = none :=
  if_neg (mt isValid_iff.1 h)

theorem slash_mem_base_iff (base quote : String) :
    '/' ∈ (ofSymbols base quote).base.toList ↔ '/' ∈ base.toList :=
  Text.slash_mem_upper_trim base

theorem slash_mem_quote_iff (base quote : String) :
    '/' ∈ (ofSymbols base quote).quote.toList ↔ '/' ∈ quote.toList :=
  Text.slash_mem_upper_trim quote

theorem ofSymbols?_eq_none_of_base {base : String} (h : '/' ∈ base.toList) (quote : String) :
    ofSymbols? base quote = none :=
  ofSymbols?_eq_none fun hv ↦ hv.1.2.1 ((slash_mem_base_iff base quote).2 h)

theorem ofSymbols?_eq_none_of_quote (base : String) {quote : String} (h : '/' ∈ quote.toList) :
    ofSymbols? base quote = none :=
  ofSymbols?_eq_none fun hv ↦ hv.2.1.2.1 ((slash_mem_quote_iff base quote).2 h)

/-- Symbols of which the outer side is trimmed make the same pair. -/
theorem ofSymbols_dropWhile_rdropWhile (base quote : List Char) :
    ofSymbols (String.ofList (base.dropWhile Text.isBlank))
      (String.ofList (quote.rdropWhile Text.isBlank)) =
      ofSymbols (String.ofList base) (String.ofList quote) := by
  simp only [ofSymbols, Text.trim, String.toList_ofList, Text.trimChars_dropWhile,
    Text.trimChars_rdropWhile]

/-! ## Splitting tickers -/

theorem splitSlash?_eq_none {s : List Char} (h : '/' ∉ s) : splitSlash? s = none := by
  induction s with
  | nil => rfl
  | cons c s ih =>
    obtain ⟨hc, hs⟩ := List.ne_and_not_mem_of_not_mem_cons h
    rw [splitSlash?, if_neg (Ne.symm hc), ih hs, Option.map_none]

/-- A text without a slash is no ticker. -/
theorem ofText?_eq_none {s : String} (h : '/' ∉ s.toList) : ofText? s = none := by
  have hslash : Text.isBlank '/' = false := by decide
  rw [ofText?, splitSlash?_eq_none (mt (Text.mem_trimChars_iff hslash _).1 h)]
  rfl

/-- A text is read as the pair of what stands before and after its first slash. -/
theorem ofText?_of_notMem {base : List Char} (h : '/' ∉ base) (quote : List Char) :
    ofText? (String.ofList (base ++ '/' :: quote)) =
      ofSymbols? (String.ofList base) (String.ofList quote) := by
  have hslash : Text.isBlank '/' = false := by decide
  have hbase : '/' ∉ base.dropWhile Text.isBlank := fun hmem ↦
    h ((List.dropWhile_sublist _).subset hmem)
  rw [ofText?, String.toList_ofList, Text.trimChars_append_cons hslash, splitSlash?_append hbase]
  simp only [Option.bind_eq_bind, Option.bind_some, ofSymbols_dropWhile_rdropWhile, ofSymbols?]

theorem append_slash (base quote : String) :
    base ++ "/" ++ quote = String.ofList (base.toList ++ '/' :: quote.toList) := by
  apply String.toList_injective
  simp

/-- A text is read as the pair of what stands before and after any of its slashes: if there is more
than one, there is no such pair. -/
theorem ofText?_append (base quote : String) :
    ofText? (base ++ "/" ++ quote) = ofSymbols? base quote := by
  by_cases h : '/' ∈ base.toList
  · -- The text is split within the base, and the slash between the two texts is left in the quote.
    obtain ⟨u, t, hbase, hu⟩ := List.eq_append_cons_of_mem h
    have hmem : '/' ∈ (String.ofList (t ++ '/' :: quote.toList)).toList := by
      rw [String.toList_ofList]
      exact List.mem_append_right _ List.mem_cons_self
    rw [append_slash, hbase, List.append_assoc, List.cons_append, ofText?_of_notMem hu,
      ofSymbols?_eq_none_of_quote _ hmem, ofSymbols?_eq_none_of_base h]
  · rw [append_slash, ofText?_of_notMem h, String.ofList_toList, String.ofList_toList]

/-! ## The grammar of tickers -/

/-- A text spells a pair if it holds one slash and its two sides, trimmed and in upper case, are the
symbols of the pair, which are not empty, hold no blank and differ. -/
structure Spells (s : String) (p : CurrencyPair) : Prop where
  count_slash : s.toList.count '/' = 1
  /-- The symbols are the sides of the slash, trimmed and in upper case. -/
  exists_sides : ∃ base quote, s = base ++ "/" ++ quote ∧
    p.base = Text.upper (Text.trim base) ∧ p.quote = Text.upper (Text.trim quote)
  base_ne : p.base ≠ ""
  quote_ne : p.quote ≠ ""
  base_blank : ∀ c ∈ p.base.toList, Text.isBlank c = false
  quote_blank : ∀ c ∈ p.quote.toList, Text.isBlank c = false
  ne : p.base ≠ p.quote

theorem count_slash_append (base quote : String) :
    (base ++ "/" ++ quote).toList.count '/' =
      base.toList.count '/' + quote.toList.count '/' + 1 := by
  rw [append_slash, String.toList_ofList, List.count_append, List.count_cons_self, add_assoc]

/-- Two texts with a slash between them spell the pair that they make if it is valid. -/
theorem spells_append {base quote : String} (h : (ofSymbols base quote).Valid) :
    Spells (base ++ "/" ++ quote) (ofSymbols base quote) where
  count_slash := by
    rw [count_slash_append, List.count_eq_zero.2 (mt (slash_mem_base_iff base quote).2 h.1.2.1),
      List.count_eq_zero.2 (mt (slash_mem_quote_iff base quote).2 h.2.1.2.1)]
  exists_sides := ⟨base, quote, rfl, rfl, rfl⟩
  base_ne heq := h.1.1 (String.toList_eq_nil_iff.2 heq)
  quote_ne heq := h.2.1.1 (String.toList_eq_nil_iff.2 heq)
  base_blank := h.1.2.2
  quote_blank := h.2.1.2.2
  ne := h.2.2

/-- A pair that a text spells is valid, and two sides of a slash in the text make it. -/
theorem Spells.exists_ofSymbols {s : String} {p : CurrencyPair} (h : Spells s p) :
    p.Valid ∧ ∃ base quote, s = base ++ "/" ++ quote ∧ ofSymbols base quote = p := by
  obtain ⟨base, quote, rfl, hbase, hquote⟩ := h.exists_sides
  have hp : ofSymbols base quote = p := by
    cases p
    exact congrArg₂ CurrencyPair.mk hbase.symm hquote.symm
  have hcount := h.count_slash
  rw [count_slash_append] at hcount
  have hb : '/' ∉ p.base.toList := by
    rw [← hp, slash_mem_base_iff]
    exact List.count_eq_zero.1 (by omega)
  have hq : '/' ∉ p.quote.toList := by
    rw [← hp, slash_mem_quote_iff]
    exact List.count_eq_zero.1 (by omega)
  exact ⟨⟨⟨mt String.toList_eq_nil_iff.1 h.base_ne, hb, h.base_blank⟩,
    ⟨mt String.toList_eq_nil_iff.1 h.quote_ne, hq, h.quote_blank⟩, h.ne⟩, base, quote, rfl, hp⟩

/-- A text is read as the pair that it spells. -/
theorem ofText?_eq_some_iff {s : String} {p : CurrencyPair} : ofText? s = some p ↔ Spells s p := by
  constructor
  · intro h
    by_cases hs : '/' ∈ s.toList
    · obtain ⟨base, quote, hsplit, -⟩ := List.eq_append_cons_of_mem hs
      have htext : s = String.ofList base ++ "/" ++ String.ofList quote := by
        rw [append_slash, String.toList_ofList, String.toList_ofList, ← hsplit,
          String.ofList_toList]
      rw [htext, ofText?_append] at h
      obtain ⟨hv, rfl⟩ := ofSymbols?_eq_some_iff.1 h
      rw [htext]
      exact spells_append hv
    · rw [ofText?_eq_none hs] at h
      cases h
  · intro h
    obtain ⟨hv, base, quote, rfl, rfl⟩ := h.exists_ofSymbols
    rw [ofText?_append]
    exact ofSymbols?_eq_some_iff.2 ⟨hv, rfl⟩

/-- A text is parsed as a pair exactly if it spells the pair. -/
theorem parse_eq_ok_iff {s : String} {p : CurrencyPair} : parse s = .ok p ↔ Spells s p := by
  rw [← ofText?_eq_some_iff, parse]
  cases ofText? s with
  | none => exact iff_of_false nofun nofun
  | some q => rw [Except.ok.injEq, Option.some.injEq]

/-- A normal pair is read back from its text. -/
theorem Normal.parse_text {p : CurrencyPair} (h : p.Normal) : parse p.text = .ok p := by
  have hp := ofSymbols_of_normal h.base h.quote
  have hspells : Spells p.text (ofSymbols p.base p.quote) := spells_append (hp ▸ h.valid)
  rw [hp] at hspells
  exact parse_eq_ok_iff.2 hspells

/-! ## The two spellings -/

/-- The fields of a record are two symbols, in either order and however the names are written. -/
def AreSymbols (base quote : String) (entries : List (Key × Value)) : Prop :=
  (entries.map fun e ↦ (e.1.text, e.2)).Perm (CurrencyPair.mk base quote).members

theorem AreSymbols.areFieldsReadable {base quote : String} {entries : List (Key × Value)}
    (h : AreSymbols base quote entries) : Value.areFieldsReadable entries = true := by
  refine Value.areFieldsReadable_iff.2 fun e he ↦ ?_
  have hmem := h.mem_iff.1 (List.mem_map_of_mem he)
  simp only [members, List.mem_cons, List.not_mem_nil, or_false, Prod.mk.injEq] at hmem
  rcases hmem with ⟨-, hv⟩ | ⟨-, hv⟩
  · rw [hv]
    rfl
  · rw [hv]
    rfl

/-- A record of two symbols is read as the pair that they make. -/
theorem AreSymbols.ofEntries?_eq {base quote : String} {entries : List (Key × Value)}
    (h : AreSymbols base quote entries) : ofEntries? entries = ofSymbols? base quote := by
  have hnodup : ((CurrencyPair.mk base quote).members.map Prod.fst).Nodup := by
    show ["base", "quote"].Nodup
    decide
  -- Both fields are known, so they are what is left of the record.
  have hknown := h.filter fun f ↦ ["base", "quote"].contains f.1
  have hall : (CurrencyPair.mk base quote).members.filter
      (fun f ↦ ["base", "quote"].contains f.1) = (CurrencyPair.mk base quote).members := rfl
  rw [hall] at hknown
  have hget := Fields.get?_eq_of_perm hknown hnodup
  have hfs : Fields.ofEntries? ["base", "quote"] entries = some _ :=
    if_pos ((hknown.map Prod.fst).nodup_iff.2 hnodup)
  rw [ofEntries?, hfs]
  have hbase : Value.text? (.text base) = some base := rfl
  have hquote : Value.text? (.text quote) = some quote := rfl
  refine (Fields.bind_required (hget "base") hbase _).trans
    ((Fields.bind_required (hget "quote") hquote _).trans ?_)
  simp only [h.areFieldsReadable, Bool.and_true, ofSymbols?]

/-- A pair is read alike from a text of two symbols and from a record of them. -/
theorem decode?_text_eq_record {base quote : String} {entries : List (Key × Value)}
    (h : AreSymbols base quote entries) :
    decode? (.text (base ++ "/" ++ quote)) = decode? (.record entries) :=
  (ofText?_append base quote).trans h.ofEntries?_eq.symm

/-- A text is read as the pair that it spells, and as no other.  A valid pair that is made from
symbols is spelled by its own text, and no other such pair has that text.  A record of two symbols
is another spelling of the text with a slash between them: either both are read as one pair, or
neither is read. -/
theorem reads_spellings :
    (∀ s p, parse s = .ok p ↔ Spells s p) ∧
    (∀ base quote, (ofSymbols base quote).validate = .ok () →
      parse (ofSymbols base quote).text = .ok (ofSymbols base quote)) ∧
    (∀ base quote base' quote', (ofSymbols base quote).validate = .ok () →
      (ofSymbols base' quote').validate = .ok () →
      (ofSymbols base quote).text = (ofSymbols base' quote').text →
      ofSymbols base quote = ofSymbols base' quote') ∧
    ∀ base quote entries, AreSymbols base quote entries →
      decode? (.text (base ++ "/" ++ quote)) = decode? (.record entries) := by
  refine ⟨fun s p ↦ parse_eq_ok_iff, fun base quote h ↦ ?_, fun base quote base' quote' h h' ↦ ?_,
    fun base quote entries ↦ decode?_text_eq_record⟩
  · have hnormal : (ofSymbols base quote).Normal :=
      normal_iff.2 ⟨validate_eq_ok_iff.1 h, base, quote, rfl⟩
    exact hnormal.parse_text
  · exact (validate_eq_ok_iff.1 h).eq_of_text_eq (validate_eq_ok_iff.1 h')

/-- A ticker with blanks around it, the pair that it spells, and a record of its sides. -/
theorem reads_spellings_btc :
    Spells " btc/usdt " ⟨"BTC", "USDT"⟩ ∧ parse " btc/usdt " = .ok ⟨"BTC", "USDT"⟩ ∧
    (ofSymbols "btc" "usdt").validate = .ok () ∧
    parse (ofSymbols "btc" "usdt").text = .ok (ofSymbols "btc" "usdt") ∧
    (ofSymbols " Btc" "USDT").validate = .ok () ∧
    (ofSymbols "btc" "usdt").text = (ofSymbols " Btc" "USDT").text ∧
    ofSymbols "btc" "usdt" = ofSymbols " Btc" "USDT" ∧
    AreSymbols " btc" "usdt " [(.escaped "quote", .text "usdt "), (.plain "base", .text " btc")] ∧
    decode? (.text (" btc" ++ "/" ++ "usdt ")) =
      decode? (.record [(.escaped "quote", .text "usdt "), (.plain "base", .text " btc")]) := by
  have hbase : ValidSymbol "BTC" := isSymbol_iff.1 (by decide)
  have hquote : ValidSymbol "USDT" := isSymbol_iff.1 (by decide)
  have hspells : Spells " btc/usdt " ⟨"BTC", "USDT"⟩ :=
    { count_slash := by decide
      exists_sides := ⟨" btc", "usdt ", by decide, by decide, by decide⟩
      base_ne := by decide
      quote_ne := by decide
      base_blank := hbase.2.2
      quote_blank := hquote.2.2
      ne := by decide }
  have hv : (ofSymbols "btc" "usdt").validate = .ok () := by decide
  have hv' : (ofSymbols " Btc" "USDT").validate = .ok () := by decide
  have htext : (ofSymbols "btc" "usdt").text = (ofSymbols " Btc" "USDT").text := by decide
  have hfields : AreSymbols " btc" "usdt "
      [(.escaped "quote", .text "usdt "), (.plain "base", .text " btc")] := .swap _ _ _
  obtain ⟨hgrammar, hread, hinjective, hrecord⟩ := reads_spellings
  exact ⟨hspells, (hgrammar _ _).2 hspells, hv, hread _ _ hv, hv', htext,
    hinjective _ _ _ _ hv hv' htext, hfields, hrecord _ _ _ hfields⟩

end OracleMarkets.CurrencyPair
