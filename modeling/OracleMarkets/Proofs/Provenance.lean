import OracleMarkets.Proofs.Aggregate
import OracleMarkets.Proofs.Generation

/-!
# Where prices come from

Every provider of a generated market prices it by a row of the store.  Its fields say how: the pair
of the row, turned over if `invert` is set, has the base of the market, and its quote is the quote
of the market, unless it is normalized by a pair that leads from the one quote to the other.
-/

namespace OracleMarkets

variable {c : Config}

/-- The pair that a row prices, from the other side if `invert` is set. -/
def VenueRow.pairFrom (r : VenueRow) (invert : Bool) : CurrencyPair :=
  let pair := CurrencyPair.ofSymbols r.key.base r.key.quote
  if invert then pair.inverted else pair

/-- The provider `p` prices `pair` by the row `r`. -/
structure VenueRow.Prices (c : Config) (r : VenueRow) (pair : CurrencyPair) (p : ProviderConfig) :
    Prop where
  configured : (c.provider? r.venue).isSome
  name : p.name = r.key.provider
  offChainTicker : p.offChainTicker = r.key.offChainTicker
  metadata : p.metadata = r.metadata
  base : (r.pairFrom p.invert).base = pair.base
  /-- The row prices it in the quote, or in what the pair by which the provider is normalized turns
  into the quote. -/
  quote : (c.normalizer? (r.pairFrom p.invert).quote = none ∧ p.normalizeBy = none ∧
      (r.pairFrom p.invert).quote = pair.quote) ∨
    ∃ n, c.normalizer? (r.pairFrom p.invert).quote = some n ∧ p.normalizeBy = some n ∧
      n.base = (r.pairFrom p.invert).quote ∧ n.quote = pair.quote
  /-- Only a row whose quote markets may not have is turned over, and they may have its base. -/
  invert : p.invert = true →
    c.isTargetQuote (CurrencyPair.ofSymbols r.key.base r.key.quote).quote = false ∧
      c.isTargetQuote (CurrencyPair.ofSymbols r.key.base r.key.quote).base = true

/-! ## From rows to feeds -/

theorem mem_venueRows {s : Snapshot} {venues : List String} {r : VenueRow} :
    r ∈ s.venueRows venues ↔ r ∈ s.rows ∧ r.venue ∈ venues := by
  simp [Snapshot.venueRows, List.mem_mergeSort]

/-- The feed of a row has the pair of its symbols, which is valid, and is not restated yet. -/
theorem feedOfRow_eq_ok {r : VenueRow} {g : Feed} (h : feedOfRow c r = .ok g) :
    g.pair.Normal ∧ g.ticker = .ofPair (.ofSymbols r.key.base r.key.quote)
        (c.minProviderCountFor r.venue) ∧
      g.provider = ⟨r.key.provider, r.key.offChainTicker, none, false, r.metadata⟩ := by
  rw [feedOfRow, check_bind_eq_ok] at h
  obtain ⟨hvalid, h⟩ := h
  rw [← Except.ok.inj h]
  refine ⟨CurrencyPair.normal_of_isValid ?_, rfl, rfl⟩
  rw [CurrencyPair.validate] at hvalid
  split at hvalid
  · next hv => exact hv
  · cases hvalid

/-- Every feed of a snapshot is the feed of one of its rows, of a venue with settings. -/
theorem exists_row_of_queryFeeds {s : Snapshot} {feeds : List Feed}
    (h : queryFeeds c s.venueRows = .ok feeds) {g : Feed} (hg : g ∈ feeds) :
    ∃ r ∈ s.rows, (c.provider? r.venue).isSome ∧ feedOfRow c r = .ok g := by
  obtain ⟨r, hr, hrg⟩ := exists_mem_of_mapM h hg
  obtain ⟨hmem, hvenue⟩ := mem_venueRows.1 hr
  exact ⟨r, hmem, SortedMap.contains_iff_mem_keys.2 hvenue, hrg⟩

/-! ## From feeds to providers -/

/-- A feed that comes out of the chain prices its pair by the row that it was made of. -/
theorem prices_of_settlesTo (hc : c.IsDecoded) (hv : c.validate = .ok ()) {r : VenueRow}
    {g f : Feed} (hr : (c.provider? r.venue).isSome) (hg : feedOfRow c r = .ok g)
    (hf : SettlesTo c g f) : r.Prices c f.pair f.provider := by
  obtain ⟨hnormal, hticker, hprovider⟩ := feedOfRow_eq_ok hg
  have hpair : g.pair = CurrencyPair.ofSymbols r.key.base r.key.quote := by
    rw [Feed.pair, hticker, Ticker.ofPair]
  obtain ⟨h, hgh, hhf⟩ := hf
  have hh := normal_of_restate? hgh.restate hnormal
  have hturned : h.provider = ⟨r.key.provider, r.key.offChainTicker, none, h.provider.invert,
        r.metadata⟩ ∧ r.pairFrom h.provider.invert = h.pair ∧
      (h.provider.invert = true → c.isTargetQuote g.pair.quote = false ∧
        c.isTargetQuote g.pair.base = true) := by
    rcases restate?_cases hgh.restate with ⟨-, rfl⟩ | ⟨hq, hb, rfl⟩
    · rw [hprovider]
      exact ⟨rfl, hpair.symm, fun h ↦ absurd h Bool.false_ne_true⟩
    · rw [hprovider]
      exact ⟨rfl, (congrArg CurrencyPair.inverted hpair).symm, fun _ ↦ ⟨hq, hb⟩⟩
  obtain ⟨hfields, hpairFrom, hinvert⟩ := hturned
  have hprov : f.provider = ⟨r.key.provider, r.key.offChainTicker, c.normalizer? h.pair.quote,
      h.provider.invert, r.metadata⟩ := by
    cases hhf with
    | same hn => rw [hn, ← hfields]
    | rescaled price hn =>
      rw [hn, Feed.rescale, hfields]
  rw [hpair] at hinvert
  rw [hhf.pair_eq hc hh, hprov]
  refine ⟨hr, rfl, rfl, rfl, by rw [hpairFrom], ?_, hinvert⟩
  rw [hpairFrom]
  cases hn : c.normalizer? h.pair.quote with
  | none => exact .inl ⟨rfl, rfl, (Config.settledQuote_of_no_normalizer hn).symm⟩
  | some n =>
    exact .inr ⟨n, rfl, rfl, (Config.normalizer_of_validate hv hn).1,
      (Config.settledQuote_of_normalizer hn).symm⟩

/-! ## Generated markets -/

/-- Every provider of a generated market prices the pair of the market by a row of the store, if no
venue is on-chain and no market is overridden. -/
theorem exists_row_of_generate {g : Generator} (hc : c.IsDecoded)
    (hg : Generator.ofConfig c = .ok g) (hdefi : ∀ name, c.isDefi name = false)
    (hov : c.overrides = ∅) (s : Snapshot) {out : Generated}
    (hrun : g.generate s.venueRows = .ok out) {key : String} {market : Market}
    (hmarket : out.marketMap.get? key = some market) {p : ProviderConfig}
    (hp : p ∈ market.providers) :
    key = market.tickerText ∧ ∃ r ∈ s.rows, r.Prices c market.ticker.pair p := by
  obtain ⟨hv, rfl⟩ := Generator.eq_of_ofConfig hg
  obtain ⟨feeds, hfeeds, hrun⟩ := bind_eq_ok.1 hrun
  obtain ⟨⟨kept, removals⟩, hkept, hrun⟩ := bind_eq_ok.1 hrun
  obtain ⟨⟨m, exclusions⟩, hm, hrun⟩ := bind_eq_ok.1 hrun
  obtain ⟨-, hrun⟩ := check_bind_eq_ok.1 hrun
  cases hrun
  have hsel := selected_of_standardFeedChain hkept
  have hemitted := emitted_of_standardMarketChain hv hov hm
  obtain ⟨market₀, hmarket₀, hsame, hsub⟩ := (hemitted key market hmarket).narrows hdefi
  obtain ⟨⟨f₀, hf₀, hkey₀, hpair₀⟩, hproviders⟩ := mem_of_get?_aggregate hmarket₀
  obtain ⟨f, hf, hkey, rfl⟩ := hproviders p (hsub.subset hp)
  -- The pair of a kept feed is normal, so its text determines it.
  have hrow : ∀ f ∈ kept, ∃ r ∈ s.rows, r.Prices c f.pair f.provider ∧ f.pair.Valid := by
    intro f hf
    obtain ⟨g, hg, hgf⟩ := hsel.settles f hf
    have hg := (Feed.sortCanonical_perm feeds).mem_iff.1 hg
    obtain ⟨r, hr, hvenue, hrg⟩ := exists_row_of_queryFeeds hfeeds hg
    exact ⟨r, hr, prices_of_settlesTo hc hv hvenue hrg hgf,
      (hgf.normal hc (feedOfRow_eq_ok hrg).1).valid⟩
  obtain ⟨r, hr, hprices, hvalid⟩ := hrow f hf
  obtain ⟨-, -, -, hvalid₀⟩ := hrow f₀ hf₀
  have hpair : market.ticker.pair = f.pair := by
    rw [hsame, hpair₀]
    exact hvalid₀.eq_of_text_eq hvalid (hkey₀.trans hkey.symm)
  refine ⟨?_, r, hr, ?_⟩
  · rw [Market.tickerText, hpair]
    exact hkey.symm
  · rwa [hpair]

theorem generate_smallRows :
    (Generator.small.generate (Snapshot.mk smallRows).venueRows).map (fun out ↦
        (out.marketMap.get? "ETH/USD").map (·.providers)) =
      .ok (some [⟨"kraken", "usdt-eth", some ⟨"USDT", "USD"⟩, true, "from usdt-eth"⟩]) := by
  -- The sorts are replaced by insertion, which can be run on closed lists.
  simp only [Generator.generate, Snapshot.venueRows_eq_insertionSort, Generator.small,
    Generator.generateFromFeeds, standardFeedChain, feedStages, List.map_cons, List.map_nil,
    Stage.chain, resolveCmcConflicts, references, resolveProviderConflicts, topFeeds, splitTop,
    Feed.sortByRank_eq_insertionSort, Feed.sortCanonical_eq_insertionSort]
  decide +kernel

/-- The market of ether is priced by a row that is seen from the other side. -/
theorem exists_row_of_generate_small :
    ∃ out market p, Generator.small.generate (Snapshot.mk smallRows).venueRows = .ok out ∧
      out.marketMap.get? "ETH/USD" = some market ∧ p ∈ market.providers ∧ p.invert = true ∧
      "ETH/USD" = market.tickerText ∧
        ∃ r ∈ smallRows, r.Prices .small market.ticker.pair p := by
  have hproviders := generate_smallRows
  cases hrun : Generator.small.generate (Snapshot.mk smallRows).venueRows with
  | error e =>
    rw [hrun] at hproviders
    cases hproviders
  | ok out =>
    rw [hrun] at hproviders
    obtain ⟨market, hmarket, hp⟩ := Option.map_eq_some_iff.1 (Except.ok.inj hproviders)
    have hmem : ⟨"kraken", "usdt-eth", some ⟨"USDT", "USD"⟩, true, "from usdt-eth"⟩ ∈
        market.providers := by
      rw [hp]
      exact List.mem_cons_self
    exact ⟨out, market, _, rfl, hmarket, hmem, rfl,
      exists_row_of_generate Config.isDecoded_small
        (Generator.ofConfig_of_validate Config.validate_small) Config.isDefi_small rfl
        ⟨smallRows⟩ hrun hmarket hmem⟩

end OracleMarkets
