import OracleMarkets.Proofs.Provenance

/-!
# Venues that count

Supplemental venues do not count when a market with too few providers is left out, and what counts
then is the number that the feeds of the market ask for.  Afterwards the configuration may force
another number on every market, and the final check of the map compares that number with all
providers.  So every generated market has counted venues enough for its feeds, but it may list
supplemental ones to make up the number that it is forced to ask for.
-/

namespace OracleMarkets

variable {c : Config}

/-- The venues of the market that are not supplemental. -/
def Market.counted (c : Config) (m : Market) : List String :=
  m.providerNames.filter fun name ↦ !c.isSupplemental name

theorem Market.counted_eq_providerNames {m : Market}
    (h : ∀ p ∈ m.providers, c.isSupplemental p.name = false) : m.counted c = m.providerNames := by
  refine List.filter_eq_self.2 fun name hname ↦ ?_
  obtain ⟨p, hp, rfl⟩ := List.mem_map.1 hname
  simp [h p hp]

/-- A market is kept exactly if at least as many providers count as it asks for. -/
theorem insufficient?_eq_none_iff {m : Market} :
    insufficient? c m = none ↔ m.ticker.minProviderCount.toNat ≤ (m.counted c).length := by
  unfold insufficient?
  constructor
  · intro h
    dsimp only at h
    split at h
    · cases h
    · next hcounted => exact Nat.not_lt.1 hcounted
  · intro h
    exact if_neg (Nat.not_lt.2 h)

/-- `market` is what is left of `market₀`, and has counted venues enough for it. -/
structure Market.Provided (c : Config) (market₀ market : Market) : Prop where
  names : market.providerNames =
    market₀.providerNames.filter fun name ↦ !c.disables market₀.tickerText name
  /-- As many venues count as the former market asks for. -/
  enough : market₀.ticker.minProviderCount.toNat ≤ (market.counted c).length
  /-- The market asks for as many providers as all are forced to, or else for as many as before. -/
  asks : market.ticker.minProviderCount =
    if 0 < c.minProviderCountOverride then c.minProviderCountOverride
    else market₀.ticker.minProviderCount

/-- A market that the chain emits of markets under their tickers has counted venues enough for the
market that it is made of. -/
theorem Emitted.provided {m₀ : MarketMap} (hkeyed : m₀.Keyed) {key : String} {market : Market}
    (h : Emitted c m₀ key market) :
    ∃ market₀, m₀.get? market₀.tickerText = some market₀ ∧ market₀.Provided c market := by
  obtain @⟨renames, key₀, _, left, @⟨market₀, hfound, -⟩, -, hrekeyed, hsufficient⟩ := h
  have hcount : left.ticker.minProviderCount = market₀.ticker.minProviderCount := by
    rw [hrekeyed.ticker_eq]
    rfl
  have hkey₀ := hkeyed key₀ market₀ hfound
  subst hkey₀
  refine ⟨market₀, hfound, ?_, ?_, ?_⟩
  · exact hrekeyed.providerNames_eq.trans (Market.providerNames_without _ market₀)
  · rw [← hcount]
    exact insufficient?_eq_none_iff.1 hsufficient
  · show (if 0 < c.minProviderCountOverride then _ else left.ticker.minProviderCount) = _
    rw [hcount]

/-- Unless another number is forced on a market with supplemental venues, it has as many counted
venues as it asks for. -/
theorem Market.Provided.le_length_counted {market₀ market : Market} (h : market₀.Provided c market)
    (henough : market.ticker.minProviderCount.toNat ≤ market.providers.length)
    (hc : c.minProviderCountOverride = 0 ∨
      ∀ p ∈ market.providers, c.isSupplemental p.name = false) :
    market.ticker.minProviderCount.toNat ≤ (market.counted c).length := by
  rcases hc with hc | hc
  · rw [h.asks, hc, if_neg (UInt64.lt_irrefl 0)]
    exact h.enough
  · rw [counted_eq_providerNames hc, providerNames, List.length_map]
    exact henough

/-! ## What feeds ask for -/

theorem le_max_count (m n : UInt64) : m ≤ max m n ∧ n ≤ max m n := by
  rw [UInt64.max_def]
  split
  · next h => exact ⟨h, UInt64.le_refl n⟩
  · next h => exact ⟨UInt64.le_refl m, UInt64.le_of_lt (UInt64.not_le.1 h)⟩

theorem le_foldl_max (feeds : List Feed) (n : UInt64) :
    n ≤ feeds.foldl (fun n f ↦ max n f.ticker.minProviderCount) n ∧
      ∀ f ∈ feeds, f.ticker.minProviderCount ≤
        feeds.foldl (fun n f ↦ max n f.ticker.minProviderCount) n := by
  induction feeds generalizing n with
  | nil => exact ⟨UInt64.le_refl n, List.forall_mem_nil _⟩
  | cons f feeds ih =>
    obtain ⟨hmax, hfeeds⟩ := ih (max n f.ticker.minProviderCount)
    obtain ⟨hn, hf⟩ := le_max_count n f.ticker.minProviderCount
    exact ⟨UInt64.le_trans hn hmax, List.forall_mem_cons.2 ⟨UInt64.le_trans hf hmax, hfeeds⟩⟩

/-- A market asks for at least as many providers as each of its feeds does. -/
theorem Market.IsMadeOf.minProviderCount_le {market : Market} {f : Feed} {rest : List Feed}
    (h : market.IsMadeOf f rest) {g : Feed} (hg : g ∈ f :: rest) :
    g.ticker.minProviderCount ≤ market.ticker.minProviderCount := by
  rw [h.minProviderCount_eq]
  obtain ⟨hf, hrest⟩ := le_foldl_max rest f.ticker.minProviderCount
  rcases List.mem_cons.1 hg with rfl | hg
  · exact hf
  · exact hrest g hg

/-- A market asks for at least as many providers as the configuration does for each of its venues,
if each of its feeds does. -/
theorem minProviderCountFor_le_of_get?_aggregate {feeds : List Feed}
    (hfeeds : ∀ f ∈ feeds, f.ticker.minProviderCount = c.minProviderCountFor f.venue) {key : String}
    {market : Market} (hmarket : (aggregate c feeds).get? key = some market) {p : ProviderConfig}
    (hp : p ∈ market.providers) :
    c.minProviderCountFor p.name ≤ market.ticker.minProviderCount := by
  obtain ⟨f, rest, hfilter, hmade⟩ := exists_isMadeOf_of_get?_aggregate hmarket
  obtain ⟨g, hg, rfl⟩ := List.mem_map.1 (hmade.providers.mem_iff.1 hp)
  have hcount := hmade.minProviderCount_le hg
  rwa [hfeeds g (mem_of_filter_eq_cons hfilter hg).1] at hcount

theorem SettlesTo.venue_eq {g f : Feed} (hf : SettlesTo c g f) : f.venue = g.venue := by
  obtain ⟨h, hgh, hhf⟩ := hf
  rw [← hgh.venue_eq]
  cases hhf with
  | same => rfl
  | rescaled price => exact Feed.venue_rescale h _ price

/-- The feeds that are kept of the rows of a store ask for as many providers as the configuration
does for their venues. -/
theorem minProviderCount_of_standardFeedChain {s : Snapshot} {feeds kept : List Feed}
    {removals : RemovalLog} (hfeeds : queryFeeds c s.venueRows = .ok feeds)
    (hkept : standardFeedChain c (Feed.sortCanonical feeds) = .ok (kept, removals)) :
    ∀ f ∈ kept, f.ticker.minProviderCount = c.minProviderCountFor f.venue := by
  intro f hf
  obtain ⟨g, hg, hgf⟩ := exists_settlesTo_of_standardFeedChain hkept hf
  obtain ⟨r, -, -, hrg⟩ := exists_row_of_queryFeeds hfeeds hg
  obtain ⟨-, hticker, hprovider⟩ := feedOfRow_eq_ok hrg
  have hvenue : f.venue = r.venue := by
    rw [hgf.venue_eq, Feed.venue, hprovider]
    rfl
  rw [hvenue, hgf.ticker_eq, hticker]
  rfl

/-! ## A market that supplemental venues make up -/

/-- A configuration that forces two providers on every market, and counts one of its two venues. -/
def Config.forced : Config :=
  { standard with
    providers := .ofList [("kraken", standardCex), ("extra", { isSupplemental := true })]
    minCexProviderCount := 1
    minProviderCountOverride := 2 }

theorem Config.isDecoded_forced : forced.IsDecoded :=
  ⟨.object [("providers",
      .object [("kraken", .object []), ("extra", .object [("is_supplemental", .bool true)])]),
    ("min_cex_provider_count", .count 1), ("min_provider_count_override", .count 2)], rfl⟩

theorem Config.validate_forced : forced.validate = .ok () := by decide +kernel

/-- The standard generator of this configuration. -/
def Generator.forced : Generator := { config := .forced, config_valid := Config.validate_forced }

/-- A price of bitcoin by each of the two venues. -/
def forcedRows : List VenueRow :=
  [smallRow "BTC" "USD" 1 0,
    { smallRow "BTC" "USD" 1 0 with key := ⟨"extra", "BTCUSD", "BTC", "USD"⟩ }]

theorem generate_forcedRows :
    (Generator.forced.generate (Snapshot.mk forcedRows).venueRows).map (fun out ↦
        (out.marketMap.get? "BTC/USD").map fun m ↦ (m.ticker.minProviderCount, m.providerNames)) =
      .ok (some (2, ["extra", "kraken"])) := by
  -- The sorts are replaced by insertion, which can be run on closed lists.
  simp only [Generator.generate, Snapshot.venueRows_eq_insertionSort, Generator.forced,
    Generator.generateFromFeeds, standardFeedChain, feedStages, List.map_cons, List.map_nil,
    Stage.chain, resolveCmcConflicts, references, resolveProviderConflicts, topFeeds, splitTop,
    aggregate, Feed.sortByRank_eq_insertionSort, Feed.sortCanonical_eq_insertionSort,
    Market.sortProviders_eq_insertionSort]
  decide +kernel

/-- What is generated has a market that asks for two providers, of which one is supplemental. -/
theorem exists_generate_forcedRows :
    ∃ out market, Generator.forced.generate (Snapshot.mk forcedRows).venueRows = .ok out ∧
      out.marketMap.get? "BTC/USD" = some market ∧ market.ticker.minProviderCount = 2 ∧
      market.providerNames = ["extra", "kraken"] := by
  obtain ⟨out, hrun, hout⟩ := map_eq_ok.1 generate_forcedRows
  obtain ⟨market, hmarket, h⟩ := Option.map_eq_some_iff.1 hout
  obtain ⟨hcount, hnames⟩ := Prod.mk.inj h
  exact ⟨out, market, hrun, hmarket, hcount, hnames⟩

/-! ## Generated markets -/

/-- If no market is overridden, every generated market has as many venues that count as the market
`market₀` asks for that the kept feeds make and that it is left of, and this is no fewer than the
configuration asks for any venue of `market₀`.  So it has as many as it asks for itself, unless it
lists a supplemental venue and another number is forced on every market: then the final check only
tells that it has that many providers, counted or not. -/
theorem provided_of_generate {g : Generator} (hg : Generator.ofConfig c = .ok g)
    (hov : c.overrides = ∅) (s : Snapshot) {out : Generated}
    (hrun : g.generate s.venueRows = .ok out)
    {key : String} {market : Market} (hmarket : out.marketMap.get? key = some market) :
    market.ticker.minProviderCount.toNat ≤ market.providers.length ∧
      ((c.minProviderCountOverride = 0 ∨ ∀ p ∈ market.providers, c.isSupplemental p.name = false) →
        market.ticker.minProviderCount.toNat ≤ (market.counted c).length) ∧
      ∃ feeds kept removals market₀, queryFeeds c s.venueRows = .ok feeds ∧
        standardFeedChain c (Feed.sortCanonical feeds) = .ok (kept, removals) ∧
        (aggregate c kept).get? market₀.tickerText = some market₀ ∧ market₀.Provided c market ∧
        ∀ p ∈ market₀.providers,
          c.minProviderCountFor p.name ≤ market₀.ticker.minProviderCount := by
  obtain ⟨hv, feeds, kept, removals, hfeeds, hkept, hm, hvalid⟩ :=
    Generator.exists_stages_of_generate hg hrun
  have hemitted := emitted_of_standardMarketChain hv hov hm key market hmarket
  obtain ⟨market₀, hmarket₀, hprovided⟩ := hemitted.provided (keyed_aggregate kept)
  have henough : market.ticker.minProviderCount.toNat ≤ market.providers.length :=
    ((MarketMap.validate_eq_ok_iff.1 hvalid).1 key market hmarket).enough
  refine ⟨henough, hprovided.le_length_counted henough, feeds, kept, removals, market₀,
    hfeeds, hkept, hmarket₀, hprovided, fun p hp ↦ ?_⟩
  exact minProviderCountFor_le_of_get?_aggregate
    (minProviderCount_of_standardFeedChain hfeeds hkept) hmarket₀ hp

/-- The market of these prices asks for two providers and has them. -/
theorem provided_of_generate_forced :
    ∃ out market, Generator.forced.generate (Snapshot.mk forcedRows).venueRows = .ok out ∧
      out.marketMap.get? "BTC/USD" = some market ∧
      market.ticker.minProviderCount.toNat ≤ market.providers.length ∧
      ∃ feeds kept removals market₀,
        queryFeeds .forced (Snapshot.mk forcedRows).venueRows = .ok feeds ∧
        standardFeedChain .forced (Feed.sortCanonical feeds) = .ok (kept, removals) ∧
        (aggregate .forced kept).get? market₀.tickerText = some market₀ ∧
        market₀.Provided .forced market := by
  obtain ⟨out, market, hrun, hmarket, -⟩ := exists_generate_forcedRows
  obtain ⟨henough, -, feeds, kept, removals, market₀, hfeeds, hkept, hmarket₀, hprovided, -⟩ :=
    provided_of_generate (Generator.ofConfig_of_validate Config.validate_forced) rfl
      ⟨forcedRows⟩ hrun
      hmarket
  exact ⟨out, market, hrun, hmarket, henough, feeds, kept, removals, market₀, hfeeds, hkept,
    hmarket₀, hprovided⟩

/-- A market may ask for more providers than count: a number that is forced on it is compared with
all its providers, supplemental ones too. -/
theorem not_le_length_counted_forced :
    Config.forced.IsDecoded ∧ Generator.ofConfig .forced = .ok .forced ∧
      Config.forced.overrides = ∅ ∧
      ∃ out market, Generator.forced.generate (Snapshot.mk forcedRows).venueRows = .ok out ∧
        out.marketMap.get? "BTC/USD" = some market ∧
        ¬market.ticker.minProviderCount.toNat ≤ (market.counted .forced).length := by
  obtain ⟨out, market, hrun, hmarket, hcount, hnames⟩ := exists_generate_forcedRows
  refine ⟨Config.isDecoded_forced, Generator.ofConfig_of_validate Config.validate_forced, rfl, out,
    market, hrun, hmarket, ?_⟩
  rw [hcount, Market.counted, hnames]
  decide +kernel

end OracleMarkets
