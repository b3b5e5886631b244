import OracleMarkets.Config.File
import OracleMarkets.Proofs.Document

/-!
# Configurations that are read and checked

A configuration that is read from a document normalizes quotes by normal pairs only.  One that is
also checked normalizes a quote by a pair that leads from this quote to another quote of the
configuration, and every ticker under which it disables providers can be read.
-/

namespace OracleMarkets

/-! ## Normal pairs -/

section

variable {H : Value → Prop}

/-- A pair to normalize by is in normal form once it is read. -/
theorem QuoteSettings.yields_normal (hH : Hereditary H) :
    Yields H decode? fun s ↦ ∀ n, s.normalizeBy = some n → n.Normal := by
  intro v s hv h
  simp only [decode?, Option.bind_eq_bind, Option.bind_eq_some_iff] at h
  obtain ⟨fs, hfs, _, -, _, -, n, hn, h⟩ := h
  cases h
  exact CurrencyPair.yields_normal.option.withDefault (hH.of_mem_fields hv hfs) hn nofun

theorem Config.yields_normalPairs (hH : Hereditary H) :
    Yields H decodePairs? fun pairs ↦ ∀ p ∈ pairs.keys, p.Normal := by
  intro v pairs hv h p hp
  obtain ⟨l, hl, rfl⟩ := Option.map_eq_some_iff.1 h
  obtain ⟨_, hmem⟩ := SortedMap.mem_keys_iff.1 hp
  obtain ⟨q, hq, hqp⟩ := List.mem_map.1 (SortedMap.mem_of_mem_ofList hmem)
  cases hqp
  exact CurrencyPair.yields_normal.list hH v l hv hl p hq

end

namespace Config

/-! ## Normalizers -/

/-- The configuration is what some document is read as. -/
def IsDecoded (c : Config) : Prop := ∃ v, decode? v = some c

/-- The pair by which feeds of a quote are normalized. -/
def normalizer? (c : Config) (quote : String) : Option CurrencyPair :=
  (c.quote? quote).bind (·.normalizeBy)

/-- Every pair of the configuration is normal. -/
structure HasNormalPairs (c : Config) : Prop where
  quotes : ∀ symbol s, c.quotes.get? symbol = some s → ∀ n, s.normalizeBy = some n → n.Normal
  excludedPairs : ∀ p ∈ c.excludedPairs.keys, p.Normal
  allowedPairs : ∀ p ∈ c.allowedPairs.keys, p.Normal
  overrides : c.overrides.Forall fun _ market ↦ market.HasNormalPairs

theorem settledQuote_of_normalizer {c : Config} {quote : String} {n : CurrencyPair}
    (h : c.normalizer? quote = some n) : c.settledQuote quote = n.quote := by
  rw [normalizer?] at h
  rw [settledQuote, h]

theorem settledQuote_of_no_normalizer {c : Config} {quote : String}
    (h : c.normalizer? quote = none) : c.settledQuote quote = quote := by
  rw [normalizer?] at h
  rw [settledQuote, h]

theorem normal_of_standardQuotes {quote : String} {s : QuoteSettings} {n : CurrencyPair}
    (h : standardQuotes.get? quote = some s) (hn : s.normalizeBy = some n) : n.Normal := by
  have hmem := SortedMap.mem_of_mem_ofList (SortedMap.get?_eq_some_iff.1 h)
  simp only [List.mem_cons, Prod.mk.injEq, List.not_mem_nil, or_false] at hmem
  rcases hmem with ⟨-, rfl⟩ | ⟨-, rfl⟩ | ⟨-, rfl⟩
  · cases hn
  · cases hn
    exact CurrencyPair.normal_of_ofText? (s := "USDT/USD") (by decide +kernel)
  · cases hn
    exact CurrencyPair.normal_of_ofText? (s := "USDC/USD") (by decide +kernel)

/-- A configuration that is read has normal pairs. -/
theorem IsDecoded.hasNormalPairs {c : Config} (hc : c.IsDecoded) : c.HasNormalPairs := by
  obtain ⟨v, hv⟩ := hc
  unfold decode? at hv
  simp only [↓bind_eq_some] at hv
  obtain ⟨fs, -, _, -, quotes, hquotes, _, -, _, -, _, -, excluded, hexcluded, allowed,
    hallowed, _, -, overrides, hoverrides, _, -, _, -, hv⟩ := hv
  cases hv
  have hH := hereditary_true
  have hfs : ∀ f ∈ fs, True := fun _ _ ↦ trivial
  exact ⟨((QuoteSettings.yields_normal hH).map hH).withDefault hfs hquotes
      fun _ _ hs _ hn ↦ normal_of_standardQuotes hs hn,
    (yields_normalPairs hH).withDefault hfs hexcluded nofun,
    (yields_normalPairs hH).withDefault hfs hallowed nofun,
    (MarketMap.yields_hasNormalPairs hH).withDefault hfs hoverrides nofun⟩

/-- A configuration that is read normalizes by normal pairs. -/
theorem IsDecoded.normal_normalizer {c : Config} (hc : c.IsDecoded) {quote : String}
    {n : CurrencyPair} (hn : c.normalizer? quote = some n) : n.Normal := by
  obtain ⟨s, hs, hsn⟩ := Option.bind_eq_some_iff.1 hn
  exact hc.hasNormalPairs.quotes quote s hs n hsn

/-! ## Checks -/

theorem parse_map_eq_ok_iff {ticker : String} :
    (CurrencyPair.parse ticker).map (fun _ ↦ ()) = .ok () ↔
      ∃ pair, CurrencyPair.parse ticker = .ok pair := by
  cases CurrencyPair.parse ticker <;> simp [Except.map]

/-- A configuration is accepted exactly if it passes every check. -/
theorem validate_eq_ok_iff {c : Config} :
    c.validate = .ok () ↔
      c.minCexProviderCount ≠ 0 ∧ c.minDexProviderCount ≠ 0 ∧
        (c.excludedPairs.isEmpty = true ∨ c.allowedPairs.isEmpty = true) ∧
        (∀ e ∈ c.providers.toList, checkProvider e.1 e.2 = .ok ()) ∧
        (∀ e ∈ c.quotes.toList, c.checkQuote e.1 e.2 = .ok ()) ∧
        (∀ ticker ∈ c.disabledProviders.keys, ∃ pair, CurrencyPair.parse ticker = .ok pair) ∧
        c.overrides.validate = .ok () := by
  have hpairs : ¬(!c.excludedPairs.isEmpty && !c.allowedPairs.isEmpty) = true ↔
      c.excludedPairs.isEmpty = true ∨ c.allowedPairs.isEmpty = true := by
    cases c.excludedPairs.isEmpty <;> cases c.allowedPairs.isEmpty <;> decide
  unfold validate
  simp only [guard_eq_ok, check_bind_eq_ok, forM_eq_ok_iff, parse_map_eq_ok_iff, hpairs, ne_eq]

/-- A quote may be normalized by a pair that leads from it to a quote of the configuration. -/
theorem checkNormalizer_eq_ok_iff {c : Config} {quote : String} {n : CurrencyPair} :
    c.checkNormalizer quote n = .ok () ↔ n.base = quote ∧ c.isTargetQuote n.quote = true := by
  unfold checkNormalizer
  by_cases hbase : n.base = quote
  · simp [hbase]
  · simp [hbase]

/-- A quote is accepted exactly if its floors are thresholds, and the pair by which it is normalized
leads from it to a quote with settings. -/
theorem checkQuote_eq_ok_iff {c : Config} {quote : String} {s : QuoteSettings} :
    c.checkQuote quote s = .ok () ↔
      checkThreshold s!"quote {quote}" "min_provider_volume" s.minProviderVolume = .ok () ∧
      checkThreshold s!"quote {quote}" "min_provider_liquidity" s.minProviderLiquidity = .ok () ∧
      ∀ n, s.normalizeBy = some n → n.base = quote ∧ c.isTargetQuote n.quote = true := by
  rw [checkQuote, check_bind_eq_ok, check_bind_eq_ok]
  refine and_congr_right fun _ ↦ and_congr_right fun _ ↦ ?_
  cases s.normalizeBy with
  | none => exact iff_of_true rfl nofun
  | some n =>
    refine checkNormalizer_eq_ok_iff.trans ⟨?_, fun h ↦ h n rfl⟩
    rintro h _ ⟨⟩
    exact h

/-- The pair by which a checked configuration normalizes a quote leads from this quote to another
quote of the configuration. -/
theorem normalizer_of_validate {c : Config} (hc : c.validate = .ok ()) {quote : String}
    {n : CurrencyPair} (hn : c.normalizer? quote = some n) :
    n.base = quote ∧ c.isTargetQuote n.quote = true := by
  obtain ⟨-, -, -, -, hquotes, -, -⟩ := validate_eq_ok_iff.1 hc
  obtain ⟨s, hs, hsn⟩ := Option.bind_eq_some_iff.1 hn
  exact (checkQuote_eq_ok_iff.1 (hquotes _ (SortedMap.get?_eq_some_iff.1 hs))).2.2 n hsn

/-- Every ticker under which a checked configuration disables providers can be read. -/
theorem exists_parse_of_validate {c : Config} (hc : c.validate = .ok ())
    {e : String × List String} (he : e ∈ c.disabledProviders.toList) :
    ∃ pair, CurrencyPair.parse e.1 = .ok pair := by
  obtain ⟨-, -, -, -, -, hdisabled, -⟩ := validate_eq_ok_iff.1 hc
  exact hdisabled e.1 (SortedMap.mem_keys_iff.2 ⟨e.2, he⟩)

/-- The overriding markets of a checked configuration are a valid map. -/
theorem validate_overrides {c : Config} (hc : c.validate = .ok ()) :
    c.overrides.validate = .ok () := by
  obtain ⟨-, -, -, -, -, -, hoverrides⟩ := validate_eq_ok_iff.1 hc
  exact hoverrides

/-! ## Files -/

/-- A configuration is loaded from a file exactly if the file's text is that of the configuration,
and the configuration is accepted. -/
theorem ofFile_eq_ok_iff {path : String} {content : Except FileError String} {c : Config} :
    ofFile path content = .ok c ↔
      ∃ text, content = .ok text ∧ ofText path text = .ok c ∧ c.validate = .ok () := by
  simp only [ofFile, bind_eq_ok, mapError_eq_ok]
  constructor
  · rintro ⟨text, htext, c', hc', ⟨⟩, hvalid, h⟩
    cases h
    exact ⟨text, htext, hc', hvalid⟩
  · rintro ⟨text, htext, hc, hvalid⟩
    exact ⟨text, htext, c, hc, (), hvalid, rfl⟩

/-! ## A small configuration -/

/-- A configuration of one centralized venue, with the standard quotes. -/
def small : Config :=
  { standard with providers := .ofList [("kraken", standardCex)], minCexProviderCount := 1 }

theorem isDecoded_small : small.IsDecoded :=
  ⟨.object [("providers", .object [("kraken", .object [])]), ("min_cex_provider_count", .count 1)],
    rfl⟩

theorem validate_small : small.validate = .ok () := by decide +kernel

theorem isDefi_small (name : String) : small.isDefi name = false := by
  rw [isDefi, provider?]
  cases hs : small.providers.get? name with
  | none => rfl
  | some s =>
    have hmem := SortedMap.mem_of_mem_ofList (SortedMap.get?_eq_some_iff.1 hs)
    cases List.mem_singleton.1 hmem
    rfl

end Config

end OracleMarkets
