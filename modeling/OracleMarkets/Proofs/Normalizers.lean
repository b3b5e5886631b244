import OracleMarkets.Proofs.Provenance
import OracleMarkets.Proofs.Stage.MeanPrices

/-!
# What prices are normalized by

Prices are normalized in one pass over the feeds, at mean prices from before the pass.  A pair by
which a feed is normalized has a feed in the list that comes in; whether it has one in the list that
goes out depends on whether its own quote is normalized as well.

In a generated map, the pair by which a provider is normalized is the one that the configuration has
for the quote of a row, and it ends in the quote of the market, unless the market of this pair
moves: providers follow it to the pair that its on-chain venue tells, whatever the quote of that
pair.
-/

namespace OracleMarkets

variable {c : Config}

/-! ## One pass over the feeds -/

section

variable {feeds out : List Feed} {log : RemovalLog} {h f : Feed} {n m : CurrencyPair}

/-- A feed is normalized only if some feed has its normalizer. -/
theorem exists_tickerText_of_normalizeFeed (hn : c.normalizer? h.pair.quote = some n)
    (hf : normalizeFeed c (averagePrices feeds) h = .ok f) :
    ∃ g ∈ feeds, g.tickerText = n.text := by
  rw [normalizeFeed_averagePrices] at hf
  cases hfault : unpriced? c feeds h with
  | none => exact (unpriced?_eq_none_iff.1 hfault).2 n hn
  | some e =>
    rw [hfault] at hf
    cases hf

/-- A feed whose quote is not normalized stays as it is. -/
theorem RequotesTo.eq_self (hf : RequotesTo c h f) (hn : c.normalizer? h.pair.quote = none) :
    f = h := by
  cases hf with
  | same => rfl
  | rescaled price hm =>
    rw [hn] at hm
    cases hm

/-- A feed whose quote is normalized takes the quote of the normalizer. -/
theorem RequotesTo.eq_ofSymbols (hf : RequotesTo c h f) (hm : c.normalizer? h.pair.quote = some m) :
    f.pair = .ofSymbols h.pair.base m.quote ∧ f.provider.normalizeBy = some m := by
  cases hf with
  | same hn =>
    rw [hn] at hm
    cases hm
  | rescaled price hn =>
    rw [hn] at hm
    cases hm
    exact ⟨rfl, rfl⟩

/-- A normalizer of a feed that had none is the one of its former quote. -/
theorem RequotesTo.normalizer (hf : RequotesTo c h f) (hnone : h.provider.normalizeBy = none)
    (hn : f.provider.normalizeBy = some n) : c.normalizer? h.pair.quote = some n := by
  cases hf with
  | same =>
    rw [hnone] at hn
    cases hn
  | rescaled price hm =>
    rw [Feed.normalizeBy_rescale] at hn
    rwa [← hn]

/-- Every feed that goes out is one that comes in, in the quote that it is normalized to. -/
theorem exists_requotesTo_of_mem (hrun : normalize c feeds = .ok (out, log)) (hf : f ∈ out) :
    ∃ h ∈ feeds, RequotesTo c h f ∧ ∀ n, c.normalizer? h.pair.quote = some n →
      ∃ g ∈ feeds, g.tickerText = n.text := by
  obtain ⟨kept, hkept, hrun⟩ := bind_eq_ok.1 hrun
  cases hrun
  obtain ⟨h, hh, hhf⟩ := exists_mem_of_mapM hkept hf
  exact ⟨h, hh, requotesTo_of_normalizeFeed hhf,
    fun n hn ↦ exists_tickerText_of_normalizeFeed hn hhf⟩

/-- Every feed that comes in goes out in the quote that it is normalized to. -/
theorem exists_mem_of_normalize (hrun : normalize c feeds = .ok (out, log)) (hh : h ∈ feeds) :
    ∃ f ∈ out, RequotesTo c h f := by
  obtain ⟨kept, hkept, hrun⟩ := bind_eq_ok.1 hrun
  cases hrun
  obtain ⟨f, hf, hhf⟩ := exists_result_of_mapM hkept hh
  exact ⟨f, hf, requotesTo_of_normalizeFeed hhf⟩

/-- A pair that some feed has has one after the pass exactly if its quote is not normalized, or some
feed comes to have it by the pass. -/
theorem exists_tickerText_iff_of_normalize (hrun : normalize c feeds = .ok (out, log))
    (hn : n.Valid) (hmem : ∃ g ∈ feeds, g.pair = n) :
    (∃ f ∈ out, f.tickerText = n.text) ↔ c.normalizer? n.quote = none ∨
      ∃ h ∈ feeds, ∃ m, c.normalizer? h.pair.quote = some m ∧
        .ofSymbols h.pair.base m.quote = n := by
  constructor
  · rintro ⟨f, hf, htext⟩
    have hpair : f.pair = n := hn.eq_of_text htext
    obtain ⟨h, hh, hhf, -⟩ := exists_requotesTo_of_mem hrun hf
    cases hm : c.normalizer? h.pair.quote with
    | none =>
      left
      rwa [← hpair, hhf.eq_self hm]
    | some m => exact .inr ⟨h, hh, m, hm, (hhf.eq_ofSymbols hm).1.symm.trans hpair⟩
  · rintro (hnone | ⟨h, hh, m, hm, rfl⟩)
    · obtain ⟨g, hg, rfl⟩ := hmem
      obtain ⟨f, hf, hgf⟩ := exists_mem_of_normalize hrun hg
      exact ⟨f, hf, by rw [hgf.eq_self hnone, Feed.tickerText]⟩
    · obtain ⟨f, hf, hhf⟩ := exists_mem_of_normalize hrun hh
      exact ⟨f, hf, by rw [Feed.tickerText, (hhf.eq_ofSymbols hm).1]⟩

end

/-- A configuration that normalizes `USDC` to `USDT`, and `USDT` to `USD`. -/
def Config.chained : Config :=
  { standard with
    quotes := .ofList
      [("USD", standardQuote none), ("USDT", standardQuote (some ⟨"USDT", "USD"⟩)),
        ("USDC", standardQuote (some ⟨"USDC", "USDT"⟩))] }

theorem Config.isDecoded_chained : chained.IsDecoded :=
  ⟨.object [("quotes", .object [("USD", .object []),
    ("USDT", .object [("normalize_by_pair", .text "USDT/USD")]),
    ("USDC", .object [("normalize_by_pair", .text "USDC/USDT")])])], rfl⟩

theorem Config.validate_chained : chained.validate = .ok () := by decide +kernel

/-- A price in `USDC`, and those of both normalizers. -/
def chainedFeeds : List Feed :=
  [Feed.ofPrice ⟨"BTC", "USDC"⟩ "kraken" "BTC-USDC" 0.0,
    Feed.ofPrice ⟨"USDC", "USDT"⟩ "kraken" "USDC-USDT" 0.0,
    Feed.ofPrice ⟨"USDT", "USD"⟩ "kraken" "USDT-USD" 0.0]

theorem normalize_chainedFeeds :
    (normalize .chained chainedFeeds).map (fun out ↦
        out.1.map fun f ↦ (f.tickerText, f.provider.normalizeBy)) =
      .ok [("BTC/USDT", some ⟨"USDC", "USDT"⟩), ("USDC/USD", some ⟨"USDT", "USD"⟩),
        ("USDT/USD", none)] := by
  decide +kernel

/-- A pair by which a feed is normalized is one by which its former quote is, and it is the pair of
a feed before the pass.  It is the ticker of a feed after the pass exactly if its own quote is not
normalized, or some feed comes to have it by the pass.  If its own quote is normalized by `m`, its
feeds take the quote of `m` instead. -/
theorem tickerText_iff_of_normalize (hc : c.IsDecoded) {feeds out : List Feed}
    (hnone : ∀ g ∈ feeds, g.provider.normalizeBy = none) {log : RemovalLog}
    (hrun : normalize c feeds = .ok (out, log)) {f : Feed} (hf : f ∈ out) {n : CurrencyPair}
    (hn : f.provider.normalizeBy = some n) :
    (∃ g ∈ feeds, g.pair = n) ∧
      ((∃ f' ∈ out, f'.tickerText = n.text) ↔ c.normalizer? n.quote = none ∨
        ∃ h ∈ feeds, ∃ m, c.normalizer? h.pair.quote = some m ∧
          .ofSymbols h.pair.base m.quote = n) ∧
      ∀ m, c.normalizer? n.quote = some m →
        ∃ f' ∈ out, f'.pair = ⟨n.base, m.quote⟩ ∧ f'.provider.normalizeBy = some m := by
  obtain ⟨h, hh, hhf, hpriced⟩ := exists_requotesTo_of_mem hrun hf
  have hquote := hhf.normalizer (hnone h hh) hn
  have hnormal := hc.normal_normalizer hquote
  obtain ⟨g, hg, htext⟩ := hpriced n hquote
  have hpair : g.pair = n := hnormal.valid.eq_of_text htext
  refine ⟨⟨g, hg, hpair⟩, ?_, ?_⟩
  · exact exists_tickerText_iff_of_normalize hrun hnormal.valid ⟨g, hg, hpair⟩
  · intro m hm
    obtain ⟨f', hf', hgf'⟩ := exists_mem_of_normalize hrun hg
    rw [← hpair] at hm
    obtain ⟨hpair', hnormalizer⟩ := hgf'.eq_ofSymbols hm
    refine ⟨f', hf', ?_, hnormalizer⟩
    rw [hpair', hpair,
      CurrencyPair.ofSymbols_of_normal hnormal.base (hc.normal_normalizer hm).quote]

/-- What goes out of the run on these feeds, and the feed that is normalized by `USDC/USDT`. -/
theorem exists_normalize_chainedFeeds :
    ∃ out log f, normalize .chained chainedFeeds = .ok (out, log) ∧
      (∀ f' ∈ out, f'.tickerText ≠ "USDC/USDT") ∧ f ∈ out ∧
      f.provider.normalizeBy = some ⟨"USDC", "USDT"⟩ := by
  obtain ⟨⟨out, log⟩, hrun, hout⟩ := map_eq_ok.1 normalize_chainedFeeds
  dsimp only at hout
  have hfirst : ∃ f ∈ out, (f.tickerText, f.provider.normalizeBy) =
      ("BTC/USDT", some ⟨"USDC", "USDT"⟩) := by
    rw [← List.mem_map, hout]
    exact List.mem_cons_self
  obtain ⟨f, hf, hfields⟩ := hfirst
  refine ⟨out, log, f, hrun, ?_, hf, (Prod.mk.inj hfields).2⟩
  intro f' hf' htext
  have hmem : (f'.tickerText, f'.provider.normalizeBy) ∈
      out.map fun f ↦ (f.tickerText, f.provider.normalizeBy) := List.mem_map_of_mem hf'
  rw [hout, htext] at hmem
  simp at hmem

theorem normalizeBy_chainedFeeds : ∀ g ∈ chainedFeeds, g.provider.normalizeBy = none := by
  simp [chainedFeeds, Feed.ofPrice, ProviderConfig.ofVenue]

theorem tickerText_iff_of_normalize_chained :
    ∃ out log f, normalize .chained chainedFeeds = .ok (out, log) ∧ f ∈ out ∧
      (∃ g ∈ chainedFeeds, g.pair = ⟨"USDC", "USDT"⟩) ∧
      ∃ f' ∈ out, f'.pair = ⟨"USDC", "USD"⟩ ∧ f'.provider.normalizeBy = some ⟨"USDT", "USD"⟩ := by
  obtain ⟨out, log, f, hrun, -, hf, hn⟩ := exists_normalize_chainedFeeds
  obtain ⟨hbefore, -, hafter⟩ := tickerText_iff_of_normalize Config.isDecoded_chained
    normalizeBy_chainedFeeds hrun hf hn
  exact ⟨out, log, f, hrun, hf, hbefore, hafter ⟨"USDT", "USD"⟩ (by decide +kernel)⟩

/-- Quotes that are normalized in a chain leave a reference to a pair without a feed. -/
theorem dangling_of_normalize_chained :
    Config.chained.IsDecoded ∧ Config.chained.validate = .ok () ∧
      (∀ g ∈ chainedFeeds, g.provider.normalizeBy = none) ∧
      ∃ out log f n, normalize .chained chainedFeeds = .ok (out, log) ∧ f ∈ out ∧
        f.provider.normalizeBy = some n ∧ ¬∃ f' ∈ out, f'.tickerText = n.text := by
  obtain ⟨out, log, f, hrun, hgone, hf, hn⟩ := exists_normalize_chainedFeeds
  refine ⟨Config.isDecoded_chained, Config.validate_chained, normalizeBy_chainedFeeds,
    out, log, f, _, hrun, hf, hn, ?_⟩
  rintro ⟨f', hf', htext⟩
  exact hgone f' hf' htext

/-! ## Normalizers of markets -/

/-- Every pair by which a provider of the market is normalized is the one that the configuration has
for its base, and it ends in the quote of the market. -/
def Market.Normalized (c : Config) (m : Market) : Prop :=
  ∀ p ∈ m.providers, ∀ n, p.normalizeBy = some n →
    c.normalizer? n.base = some n ∧ n.quote = m.ticker.pair.quote

/-- A provider is normalized by the pair of its quote, which ends in the quote of the market. -/
theorem VenueRow.Prices.normalizer {r : VenueRow} {pair n : CurrencyPair} {p : ProviderConfig}
    (h : r.Prices c pair p) (hn : p.normalizeBy = some n) :
    c.normalizer? n.base = some n ∧ n.quote = pair.quote := by
  rcases h.quote with ⟨-, hnone, -⟩ | ⟨m, hm, hsome, hbase, hquote⟩
  · rw [hnone] at hn
    cases hn
  · rw [hsome] at hn
    cases hn
    exact ⟨hbase ▸ hm, hquote⟩

/-- Markets of the kept feeds of a store are normalized as the configuration says. -/
theorem normalized_aggregate (hc : c.IsDecoded) (hv : c.validate = .ok ()) {s : Snapshot}
    {feeds kept : List Feed} {removals : RemovalLog} (hfeeds : queryFeeds c s.venueRows = .ok feeds)
    (hkept : standardFeedChain c (Feed.sortCanonical feeds) = .ok (kept, removals)) :
    (aggregate c kept).Forall fun _ market ↦ market.Normalized c := by
  have hrow : ∀ f ∈ kept, f.pair.Valid ∧ ∃ r, VenueRow.Prices c r f.pair f.provider := by
    intro f hf
    obtain ⟨g, hg, hgf⟩ := exists_settlesTo_of_standardFeedChain hkept hf
    obtain ⟨r, -, hvenue, hrg⟩ := exists_row_of_queryFeeds hfeeds hg
    exact ⟨(hgf.normal hc (feedOfRow_eq_ok hrg).1).valid, r,
      prices_of_settlesTo hc hv hvenue hrg hgf⟩
  intro key market hmarket p hp n hn
  obtain ⟨⟨f₀, hf₀, hkey₀, hpair₀⟩, hproviders⟩ := mem_of_get?_aggregate hmarket
  obtain ⟨f, hf, hkey, rfl⟩ := hproviders p hp
  obtain ⟨hvalid, r, hprices⟩ := hrow f hf
  -- The pair of a kept feed is valid, so its text determines it.
  have hpair : market.ticker.pair = f.pair :=
    hpair₀.trans ((hrow f₀ hf₀).1.eq_of_text_eq hvalid (hkey₀.trans hkey.symm))
  rw [hpair]
  exact hprices.normalizer hn

theorem Prepared.normalized {m₀ : MarketMap} {key : String} {market : Market}
    (h : Prepared c m₀ key market) (hm₀ : m₀.Forall fun _ market ↦ market.Normalized c) :
    market.Normalized c := by
  obtain ⟨hfound, -⟩ := h
  intro p hp
  exact hm₀ key _ hfound p (List.mem_of_mem_filter hp)

theorem quote_of_defiPair? {p : ProviderConfig} {pair n : CurrencyPair}
    (h : defiPair? p = some pair) (hn : p.normalizeBy = some n) : pair.quote = n.quote := by
  obtain ⟨told, -, -, hquote⟩ := exists_normal_of_defiPair? h
  rw [hquote, hn, Option.map_some, Option.getD_some]

/-- A market that moves keeps its quote if the only provider is normalized. -/
theorem Market.Normalized.quote_eq {m : Market} (h : m.Normalized c) {pair : CurrencyPair}
    (hmoves : m.MovesTo c pair) :
    pair.quote = m.ticker.pair.quote ∨ ∃ p, m.providers = [p] ∧ p.normalizeBy = none := by
  obtain ⟨p, hp, -, hpair⟩ := hmoves
  cases hn : p.normalizeBy with
  | none => exact .inr ⟨p, hp, hn⟩
  | some n =>
    left
    rw [quote_of_defiPair? hpair hn]
    exact (h p (hp ▸ List.mem_singleton_self p) n hn).2

/-- A provider of a market that is re-keyed is normalized by what a provider of the former market
follows, and that one ends in the quote of the market. -/
theorem Rekeyed.exists_normalizer {renames : SortedMap CurrencyPair CurrencyPair}
    {key₀ key : String} {market₀ market : Market} (h : Rekeyed c renames key₀ market₀ key market)
    (h₀ : market₀.Normalized c) {p : ProviderConfig} (hp : p ∈ market.providers) {n : CurrencyPair}
    (hn : p.normalizeBy = some n) :
    ∃ n₀, c.normalizer? n₀.base = some n₀ ∧ n₀.quote = market.ticker.pair.quote ∧
      n = renames.getD n₀ n₀ := by
  have hfollow : ∃ p₀ ∈ market₀.providers, p₀.follow renames = p := by
    cases h with
    | kept => exact List.mem_map.1 hp
    | moved => exact List.mem_map.1 hp
  obtain ⟨p₀, hp₀, rfl⟩ := hfollow
  obtain ⟨n₀, hn₀, rfl⟩ := Option.map_eq_some_iff.1 hn
  obtain ⟨hnormalizer, hquote⟩ := h₀ p₀ hp₀ n₀ hn₀
  refine ⟨n₀, hnormalizer, ?_, rfl⟩
  cases h with
  | kept => exact hquote
  | @moved pair hmoves =>
    obtain ⟨q, hq, -, hpair⟩ := hmoves
    rw [hq, List.mem_singleton] at hp₀
    subst hp₀
    exact (quote_of_defiPair? hpair hn₀).symm

/-- A provider follows a pair to another one only with a market that moves. -/
theorem Renames.getD_cases {P : String → Market → Prop}
    {renames : SortedMap CurrencyPair CurrencyPair} (h : Renames c P renames)
    (former : CurrencyPair) : renames.getD former former = former ∨ ∃ key market, P key market ∧
      market.ticker.pair = former ∧ market.MovesTo c (renames.getD former former) := by
  cases hget : renames.get? former with
  | none => exact .inl (by rw [SortedMap.getD, hget, Option.getD_none])
  | some pair =>
    obtain ⟨key, market, hP, hmoves, hpair⟩ := h former pair hget
    exact .inr ⟨key, market, hP, hpair, by rwa [SortedMap.getD, hget, Option.getD_some]⟩

/-! ## A normalizer that moves to another quote -/

/-- A configuration of a centralized venue and an on-chain one. -/
def Config.mixed : Config :=
  { standard with
    providers := .ofList [("kraken", standardCex), ("raydium", { isDefi := true })]
    minCexProviderCount := 1 }

theorem Config.isDecoded_mixed : mixed.IsDecoded :=
  ⟨.object [("providers",
      .object [("kraken", .object []), ("raydium", .object [("is_defi", .bool true)])]),
    ("min_cex_provider_count", .count 1)], rfl⟩

theorem Config.validate_mixed : mixed.validate = .ok () := by decide +kernel

/-- The standard generator of this configuration. -/
def Generator.mixed : Generator := { config := .mixed, config_valid := Config.validate_mixed }

/-- A price in `USDT`, and a price of `USDT` whose on-chain ticker tells another quote. -/
def mixedRows : List VenueRow :=
  [smallRow "BTC" "USDT" 1 0,
    { smallRow "USDT" "USD" 3 0 with key := ⟨"raydium", "usdt/eur", "USDT", "USD"⟩ }]

theorem generate_mixedRows :
    (Generator.mixed.generate (Snapshot.mk mixedRows).venueRows).map (fun out ↦
        (out.marketMap.get? "BTC/USD").map fun m ↦ (m.ticker.pair, m.providers)) =
      .ok (some (⟨"BTC", "USD"⟩,
        [⟨"kraken", "BTC-USDT", some ⟨"USDT", "EUR"⟩, false, "from BTC-USDT"⟩])) := by
  -- The sorts are replaced by insertion, which can be run on closed lists.
  simp only [Generator.generate, Snapshot.venueRows_eq_insertionSort, Generator.mixed,
    Generator.generateFromFeeds, standardFeedChain, feedStages, List.map_cons, List.map_nil,
    Stage.chain, resolveCmcConflicts, references, resolveProviderConflicts, topFeeds, splitTop,
    Feed.sortByRank_eq_insertionSort, Feed.sortCanonical_eq_insertionSort]
  decide +kernel

/-- What is generated has a market in `USD` whose provider is normalized by `USDT/EUR`. -/
theorem exists_generate_mixedRows :
    ∃ out market p, Generator.mixed.generate (Snapshot.mk mixedRows).venueRows = .ok out ∧
      out.marketMap.get? "BTC/USD" = some market ∧ market.ticker.pair = ⟨"BTC", "USD"⟩ ∧
      p ∈ market.providers ∧ p.normalizeBy = some ⟨"USDT", "EUR"⟩ := by
  obtain ⟨out, hrun, hout⟩ := map_eq_ok.1 generate_mixedRows
  obtain ⟨market, hmarket, h⟩ := Option.map_eq_some_iff.1 hout
  obtain ⟨hpair, hproviders⟩ := Prod.mk.inj h
  exact ⟨out, market, _, hrun, hmarket, hpair, hproviders ▸ List.mem_cons_self, rfl⟩

/-! ## Generated markets -/

/-- If no market is overridden, every pair `n` by which a provider of a generated market is
normalized is the pair `n₀` that the configuration has for the quote of a row, which ends in the
quote of the market, or the pair to which the market of `n₀` moves: the one that its only provider,
an on-chain venue, tells.  Its quote is that of the market then, too, unless that venue is not
itself normalized. -/
theorem normalizer_of_generate {g : Generator} (hc : c.IsDecoded)
    (hg : Generator.ofConfig c = .ok g) (hov : c.overrides = ∅) (s : Snapshot) {out : Generated}
    (hrun : g.generate s.venueRows = .ok out) {key : String} {market : Market}
    (hmarket : out.marketMap.get? key = some market) {p : ProviderConfig}
    (hp : p ∈ market.providers) {n : CurrencyPair} (hn : p.normalizeBy = some n) :
    ∃ n₀, c.normalizer? n₀.base = some n₀ ∧ n₀.quote = market.ticker.pair.quote ∧
      (n = n₀ ∨ ∃ feeds kept removals key₁ market₁, queryFeeds c s.venueRows = .ok feeds ∧
        standardFeedChain c (Feed.sortCanonical feeds) = .ok (kept, removals) ∧
        Prepared c (aggregate c kept) key₁ market₁ ∧ market₁.ticker.pair = n₀ ∧
        market₁.MovesTo c n ∧ (n.quote = market.ticker.pair.quote ∨
          ∃ p₁, market₁.providers = [p₁] ∧ p₁.normalizeBy = none)) := by
  obtain ⟨hv, feeds, kept, removals, hfeeds, hkept, hm, -⟩ :=
    Generator.exists_stages_of_generate hg hrun
  have hnormalized := normalized_aggregate hc hv hfeeds hkept
  obtain ⟨hprepared, hrenamed, hrekeyed, -⟩ := emitted_of_standardMarketChain hv hov hm key market
    hmarket
  obtain ⟨n₀, hn₀, hquote, rfl⟩ :=
    hrekeyed.exists_normalizer (hprepared.normalized hnormalized) hp hn
  refine ⟨n₀, hn₀, hquote, ?_⟩
  rcases hrenamed.getD_cases n₀ with hsame | ⟨key₁, market₁, hprepared₁, hpair₁, hmoves⟩
  · exact .inl hsame
  · refine .inr ⟨feeds, kept, removals, key₁, market₁, hfeeds, hkept, hprepared₁, hpair₁,
      hmoves, ?_⟩
    refine ((hprepared₁.normalized hnormalized).quote_eq hmoves).imp_left fun h ↦ ?_
    rw [h, hpair₁]
    exact hquote

/-- The provider is normalized by the pair to which the market of the configured one has moved. -/
theorem normalizer_of_generate_mixed :
    ∃ out market p, Generator.mixed.generate (Snapshot.mk mixedRows).venueRows = .ok out ∧
      out.marketMap.get? "BTC/USD" = some market ∧ p ∈ market.providers ∧
      p.normalizeBy = some ⟨"USDT", "EUR"⟩ ∧
      ∃ n₀, Config.mixed.normalizer? n₀.base = some n₀ ∧ n₀.quote = market.ticker.pair.quote := by
  obtain ⟨out, market, p, hrun, hmarket, -, hp, hn⟩ := exists_generate_mixedRows
  obtain ⟨n₀, hn₀, hquote, -⟩ := normalizer_of_generate Config.isDecoded_mixed
    (Generator.ofConfig_of_validate Config.validate_mixed) rfl ⟨mixedRows⟩ hrun hmarket hp hn
  exact ⟨out, market, p, hrun, hmarket, hp, hn, n₀, hn₀, hquote⟩

/-- A generated provider may be normalized by a pair that ends in another quote than its market. -/
theorem quote_ne_of_generate_mixed :
    Config.mixed.IsDecoded ∧ Generator.ofConfig .mixed = .ok .mixed ∧ Config.mixed.overrides = ∅ ∧
      ∃ out market p n, Generator.mixed.generate (Snapshot.mk mixedRows).venueRows = .ok out ∧
        out.marketMap.get? "BTC/USD" = some market ∧ p ∈ market.providers ∧
        p.normalizeBy = some n ∧ market.ticker.pair.quote ≠ n.quote := by
  obtain ⟨out, market, p, hrun, hmarket, hpair, hp, hn⟩ := exists_generate_mixedRows
  refine ⟨Config.isDecoded_mixed, Generator.ofConfig_of_validate Config.validate_mixed, rfl, out,
    market, p, _, hrun, hmarket, hp, hn, ?_⟩
  rw [hpair]
  decide

end OracleMarkets
