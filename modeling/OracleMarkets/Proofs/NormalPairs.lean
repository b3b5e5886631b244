import OracleMarkets.Proofs.Document
import OracleMarkets.Proofs.Normalizers

/-!
# Generated maps hold normal pairs

Each pair of a generated market map is normal, so that the map is read back as it is.  The symbols
of the markets come from rows, from the configuration and from the tickers of on-chain venues, all
of which are put in upper case where they are read.  A pair that is moved may lose its validity on
the way, but the final check refuses it then.  The same check finds a market for each pair by which
a provider is normalized, so that this pair is normal because that of the market is.
-/

namespace OracleMarkets

variable {c : Config}

/-! ## Overriding markets -/

/-- A configuration that is read overrides markets by ones of normal pairs. -/
theorem Config.IsDecoded.normal_override (hc : c.IsDecoded) {market : Market}
    (h : market ∈ c.overrides.values) : market.ticker.pair.Normal := by
  obtain ⟨⟨key, _⟩, hmem, rfl⟩ := List.mem_map.1 h
  exact (hc.hasNormalPairs.overrides key _ (SortedMap.get?_eq_some_iff.2 hmem)).pair

/-! ## Symbols -/

/-- Both symbols of the pair are normal; it need not be valid. -/
structure CurrencyPair.HasNormalSymbols (p : CurrencyPair) : Prop where
  base : NormalSymbol p.base
  quote : NormalSymbol p.quote

theorem CurrencyPair.Normal.hasNormalSymbols {p : CurrencyPair} (h : p.Normal) :
    p.HasNormalSymbols :=
  ⟨h.base, h.quote⟩

/-- Every symbol of the market that its pair has, or may get from a provider, is normal. -/
structure Market.HasNormalSymbols (m : Market) : Prop where
  pair : m.ticker.pair.HasNormalSymbols
  normalizer : ∀ n, m.NormalizesBy n → CurrencyPair.NormalSymbol n.quote

/-- The pair that an on-chain ticker tells has normal symbols if the quote that replaces its own
has. -/
theorem hasNormalSymbols_of_defiPair? {p : ProviderConfig} {pair : CurrencyPair}
    (h : defiPair? p = some pair)
    (hn : ∀ n, p.normalizeBy = some n → CurrencyPair.NormalSymbol n.quote) :
    pair.HasNormalSymbols := by
  obtain ⟨told, htold, hbase, hquote⟩ := exists_normal_of_defiPair? h
  refine ⟨hbase ▸ htold.base, ?_⟩
  rw [hquote]
  cases hp : p.normalizeBy with
  | none => exact htold.quote
  | some n => exact hn n hp

/-- Feeds of normal pairs that are normalized by normal pairs make markets of normal symbols. -/
theorem hasNormalSymbols_aggregate {feeds : List Feed} (h : ∀ f ∈ feeds, f.pair.Normal ∧
      ∀ n, f.provider.normalizeBy = some n → n.Normal) :
    (aggregate c feeds).Forall fun _ market ↦ market.HasNormalSymbols := by
  intro key market hmarket
  obtain ⟨⟨f, hf, -, hpair⟩, hproviders⟩ := mem_of_get?_aggregate hmarket
  constructor
  · rw [hpair]
    exact (h f hf).1.hasNormalSymbols
  · rintro n ⟨p, hp, hn⟩
    obtain ⟨g, hg, -, rfl⟩ := hproviders p hp
    exact ((h g hg).2 n hn).quote

/-- The feeds that the chain keeps of the feeds of rows have normal pairs and normalizers. -/
theorem normal_of_standardFeedChain (hc : c.IsDecoded) {source : RowSource} {feeds kept : List Feed}
    {removals : RemovalLog} (hfeeds : queryFeeds c source = .ok feeds)
    (hkept : standardFeedChain c (Feed.sortCanonical feeds) = .ok (kept, removals)) :
    ∀ f ∈ kept, f.pair.Normal ∧ ∀ n, f.provider.normalizeBy = some n → n.Normal := by
  intro f hf
  obtain ⟨g, hg, hgf⟩ := exists_settlesTo_of_standardFeedChain hkept hf
  obtain ⟨r, -, hrg⟩ := exists_mem_of_mapM hfeeds hg
  obtain ⟨hpair, -, hprovider⟩ := feedOfRow_eq_ok hrg
  refine ⟨hgf.normal hc hpair, fun n hn ↦ ?_⟩
  obtain ⟨h, hgh, hhf⟩ := hgf
  have hnone : h.provider.normalizeBy = none := by
    rcases restate?_cases hgh.restate with ⟨-, rfl⟩ | ⟨-, -, rfl⟩
    · rw [hprovider]
    · rw [hprovider]
  exact hc.normal_normalizer (hhf.normalizer hnone hn)

/-! ## Through the chain over markets -/

theorem Prepared.hasNormalSymbols {m₀ : MarketMap} {key : String} {market : Market}
    (h : Prepared c m₀ key market) (hm₀ : m₀.Forall fun _ market ↦ market.HasNormalSymbols) :
    market.HasNormalSymbols := by
  obtain ⟨hfound, -⟩ := h
  have h₀ := hm₀ key _ hfound
  refine ⟨h₀.pair, ?_⟩
  rintro n ⟨p, hp, hn⟩
  exact h₀.normalizer n ⟨p, List.mem_of_mem_filter hp, hn⟩

/-- The stages over a map keep the symbols of pairs normal. -/
theorem Emitted.hasNormalSymbols {m₀ : MarketMap} {key : String} {market : Market}
    (h : Emitted c m₀ key market) (hm₀ : m₀.Forall fun _ market ↦ market.HasNormalSymbols) :
    market.ticker.pair.HasNormalSymbols := by
  obtain ⟨hprepared, -, hrekeyed, -⟩ := h
  have h₀ := hprepared.hasNormalSymbols hm₀
  cases hrekeyed with
  | kept => exact h₀.pair
  | moved hmoves =>
    obtain ⟨p, hp, -, hpair⟩ := hmoves
    refine hasNormalSymbols_of_defiPair? hpair fun n hn ↦ h₀.normalizer n ⟨p, ?_, hn⟩
    rw [hp]
    exact List.mem_singleton_self p

/-! ## Generated maps -/

/-- In a valid map of normal symbols, all pairs are normal. -/
theorem MarketMap.hasNormalPairs_of_validate {m : MarketMap} (hm : m.validate = .ok ())
    (hsymbols : m.Forall fun _ market ↦ market.ticker.pair.HasNormalSymbols) :
    m.Forall fun _ market ↦ market.HasNormalPairs := by
  obtain ⟨hvalid, hresolves⟩ := validate_eq_ok_iff.1 hm
  have hnormal : m.Forall fun _ market ↦ market.ticker.pair.Normal := by
    intro key market hmarket
    have hsymbols := hsymbols key market hmarket
    exact ⟨hsymbols.base, hsymbols.quote, (hvalid key market hmarket).pair.2.2⟩
  intro key market hmarket
  refine ⟨hnormal key market hmarket, fun n hn ↦ ?_⟩
  -- The pair `n` has the text of the pair of its market, so it is that pair.
  obtain ⟨normalizer, hnormalizer, -⟩ := hresolves key market hmarket n hn
  have hnormal := hnormal n.text normalizer hnormalizer
  have heq : n = normalizer.ticker.pair :=
    hnormal.valid.eq_of_text (hvalid n.text normalizer hnormalizer).key_eq
  rwa [heq]

/-- Whatever rows a market map is generated from, it is valid and all its pairs are normal. -/
theorem hasNormalPairs_of_generate {g : Generator} (hc : c.IsDecoded)
    (hg : Generator.ofConfig c = .ok g) {source : RowSource} {out : Generated}
    (hrun : g.generate source = .ok out) :
    out.marketMap.validate = .ok () ∧
      out.marketMap.Forall fun _ market ↦ market.HasNormalPairs := by
  obtain ⟨hv, feeds, kept, removals, hfeeds, hkept, hm, hvalid⟩ :=
    Generator.exists_stages_of_generate hg hrun
  refine ⟨hvalid, MarketMap.hasNormalPairs_of_validate hvalid fun key market hmarket ↦ ?_⟩
  rcases emitted_or_mem_of_standardMarketChain hv hm key market hmarket with hemitted | ⟨hmem, -⟩
  · exact hemitted.hasNormalSymbols
      (hasNormalSymbols_aggregate (normal_of_standardFeedChain hc hfeeds hkept))
  · exact (hc.normal_override hmem).hasNormalSymbols

/-- The text of a generated map is read back as the map. -/
theorem decode?_read?_of_generate {g : Generator} (hc : c.IsDecoded)
    (hg : Generator.ofConfig c = .ok g) {source : RowSource} {out : Generated}
    (hrun : g.generate source = .ok out) {t : String} (ht : Json.Blank t.toList) :
    (Json.read? (Json.pretty out.marketMap.encode ++ t)).bind MarketMap.decode? =
      some out.marketMap :=
  MarketMap.decode?_read? (hasNormalPairs_of_generate hc hg hrun).2 ht

end OracleMarkets
