import OracleMarkets.Proofs.Generation
import OracleMarkets.Proofs.Aggregate

/-!
# What operators exclude and disable

The lists of pairs and of disabled venues look at a market under the pair that its feeds tell.  Only
afterwards does a market of one on-chain venue move to the pair that the venue's ticker tells.  So
every market that is generated passes both filters under its former pair, and any other market than
one that moves passes them under its own.  A market may move to a pair that is excluded, or for
which its venue is disabled.
-/

namespace OracleMarkets

variable {c : Config}

/-- The market passes the filters of the operator as one of the pair. -/
structure Config.Admits (c : Config) (pair : CurrencyPair) (market : Market) : Prop where
  listed : c.excludedPairs.contains pair = false
  /-- No provider of the market is disabled for the pair. -/
  enabled : ∀ e ∈ c.disabledProviders.toList, ∀ ticker, CurrencyPair.parse e.1 = .ok ticker →
    ticker.text = pair.text → ∀ p ∈ market.providers, p.name ∉ e.2

theorem contains_of_unlisted? {market : Market} (h : unlisted? c market = none) :
    c.excludedPairs.contains market.ticker.pair = false := by
  unfold unlisted? at h
  dsimp only at h
  split at h
  · split at h
    · cases h
    · next hpair => exact Bool.eq_false_iff.2 hpair
  · next hempty =>
    have hnil : c.excludedPairs.toList = [] := by simpa [SortedMap.isEmpty] using hempty
    rw [SortedMap.contains, SortedMap.get?, hnil]
    rfl

/-- A market passes the filters under the pair of the market that it is made of. -/
theorem Market.Becomes.admits {key₀ key : String} {market₀ market : Market}
    (h : market₀.Becomes c key₀ key market) (hkey : key₀ = market₀.tickerText) :
    c.Admits market₀.ticker.pair market := by
  refine ⟨contains_of_unlisted? h.listed, fun e he ticker hticker htext p hp hname ↦ ?_⟩
  have hp : p.name ∈ market.providerNames := List.mem_map_of_mem hp
  rw [h.providerNames, List.mem_filter, hkey, tickerText,
    Config.disables_iff.2 ⟨e, he, ticker, hticker, htext, hname⟩] at hp
  exact absurd hp.2 (by decide)

/-- A market that moves is one of a single on-chain venue. -/
theorem Market.Becomes.isSingleDefi {key₀ key : String} {market₀ market : Market}
    (h : market₀.Becomes c key₀ key market) {pair : CurrencyPair}
    (hmoves : (market₀.without (c.disables key₀)).MovesTo c pair) :
    isSingleDefi c market = true := by
  obtain ⟨p, hp, hdefi, -⟩ := hmoves
  have hnames : market.providerNames = (market₀.without (c.disables key₀)).providerNames :=
    h.providerNames.trans (Market.providerNames_without _ market₀).symm
  rw [isSingleDefi_congr hnames]
  exact isSingleDefi_iff.2 ⟨p, hp, hdefi⟩

/-! ## Markets that move to an excluded pair -/

/-- A configuration of one on-chain venue that excludes `X/USD` and disables the venue for
`Z/USD`. -/
def Config.onChain : Config :=
  { standard with
    providers := .ofList [("raydium", { isDefi := true })]
    excludedPairs := .ofList [⟨"X", "USD"⟩]
    disabledProviders := .ofList [("Z/USD", ["raydium"])] }

theorem Config.isDecoded_onChain : onChain.IsDecoded :=
  ⟨.object [("providers", .object [("raydium", .object [("is_defi", .bool true)])]),
    ("exclude_currency_pairs", .list [.text "X/USD"]),
    ("disable_providers", .object [("Z/USD", .list [.text "raydium"])])], rfl⟩

theorem Config.validate_onChain : onChain.validate = .ok () := by decide +kernel

/-- Prices of two pairs.  The venue's ticker of the one is the excluded pair, and that of the other
the pair for which the venue is disabled. -/
def onChainFeeds : List Feed :=
  [{ Feed.ofPrice ⟨"A", "USD"⟩ "raydium" "x/usd" 0.0 with cmc := ⟨1, 0, 1, 0⟩ },
    { Feed.ofPrice ⟨"B", "USD"⟩ "raydium" "z/usd" 0.0 with cmc := ⟨2, 0, 2, 0⟩ }]

/-- The standard generator of this configuration. -/
def Generator.onChain : Generator := { config := .onChain, config_valid := Config.validate_onChain }

theorem generateFromFeeds_onChainFeeds :
    (Generator.onChain.generateFromFeeds onChainFeeds).map (fun out ↦
        ((out.marketMap.get? "X/USD").map fun m ↦ (m.ticker.pair, m.providerNames),
          (out.marketMap.get? "Z/USD").map fun m ↦ (m.ticker.pair, m.providerNames))) =
      .ok (some (⟨"X", "USD"⟩, ["raydium"]), some (⟨"Z", "USD"⟩, ["raydium"])) := by
  -- The sorts are replaced by insertion, which can be run on closed lists.
  simp only [Generator.generateFromFeeds, Generator.onChain, standardFeedChain, feedStages,
    List.map_cons, List.map_nil, Stage.chain, resolveCmcConflicts, references,
    resolveProviderConflicts, topFeeds, splitTop, Feed.sortByRank_eq_insertionSort,
    Feed.sortCanonical_eq_insertionSort]
  decide +kernel

/-- What is generated has a market of the excluded pair `X/USD`, and one of `Z/USD` with the venue
that is disabled for it. -/
theorem exists_generateFromFeeds_onChainFeeds :
    ∃ out market market', Generator.onChain.generateFromFeeds onChainFeeds = .ok out ∧
      out.marketMap.get? "X/USD" = some market ∧ market.ticker.pair = ⟨"X", "USD"⟩ ∧
      out.marketMap.get? "Z/USD" = some market' ∧ market'.providerNames = ["raydium"] := by
  have hout := generateFromFeeds_onChainFeeds
  cases hrun : Generator.onChain.generateFromFeeds onChainFeeds with
  | error e =>
    rw [hrun] at hout
    cases hout
  | ok out =>
    rw [hrun] at hout
    obtain ⟨hx, hz⟩ := Prod.mk.inj (Except.ok.inj hout)
    obtain ⟨market, hmarket, hx⟩ := Option.map_eq_some_iff.1 hx
    obtain ⟨market', hmarket', hz⟩ := Option.map_eq_some_iff.1 hz
    exact ⟨out, market, market', rfl, hmarket, (Prod.mk.inj hx).1, hmarket', (Prod.mk.inj hz).2⟩

/-! ## Generated markets -/

/-- If no market is overridden, every generated market stands under its ticker and passes the
filters under the pair of the market `market₀` that the feeds make, which it keeps, or from which it
moves as the only provider that is left to `market₀`, an on-chain venue, tells.  So a market with
other providers than one on-chain venue passes them under its own pair. -/
theorem admits_of_generateFromFeeds {g : Generator} (hg : Generator.ofConfig c = .ok g)
    (hov : c.overrides = ∅) {feeds : List Feed} {out : Generated}
    (hrun : g.generateFromFeeds feeds = .ok out) {key : String} {market : Market}
    (hmarket : out.marketMap.get? key = some market) :
    key = market.tickerText ∧
      (isSingleDefi c market = false → c.Admits market.ticker.pair market) ∧
      ∃ kept removals market₀,
        standardFeedChain c (Feed.sortCanonical feeds) = .ok (kept, removals) ∧
        (aggregate c kept).get? market₀.tickerText = some market₀ ∧
        c.Admits market₀.ticker.pair market ∧
        (market.ticker.pair = market₀.ticker.pair ∨
          (market₀.without (c.disables market₀.tickerText)).MovesTo c market.ticker.pair) := by
  obtain ⟨hv, rfl⟩ := Generator.eq_of_ofConfig hg
  obtain ⟨⟨kept, removals⟩, hkept, hrun⟩ := bind_eq_ok.1 hrun
  obtain ⟨⟨m, exclusions⟩, hm, hrun⟩ := bind_eq_ok.1 hrun
  obtain ⟨hvalid, hrun⟩ := check_bind_eq_ok.1 hrun
  cases hrun
  have hemitted := emitted_of_standardMarketChain hv hov hm key market hmarket
  obtain ⟨key₀, market₀, hmarket₀, hbecomes⟩ := hemitted.exists_becomes
  -- Aggregated markets stand under their tickers, so both filters saw the same name.
  have hkey₀ := keyed_aggregate kept key₀ market₀ hmarket₀
  subst hkey₀
  have hadmits := hbecomes.admits rfl
  refine ⟨?_, fun hsingle ↦ ?_, kept, removals, market₀, hkept, hmarket₀, hadmits, ?_⟩
  · exact MarketMap.keyed_of_validate (liftValidation_eq_ok.1 hvalid) key market hmarket
  · rcases hbecomes.place with ⟨-, hpair⟩ | ⟨-, hmoves⟩
    · rwa [hpair]
    · exact absurd (hbecomes.isSingleDefi hmoves) (by simp [hsingle])
  · exact hbecomes.place.imp And.right And.right

/-- The market at the excluded pair was admitted under the pair that it had before. -/
theorem admits_of_generateFromFeeds_onChain :
    ∃ out market, Generator.onChain.generateFromFeeds onChainFeeds = .ok out ∧
      out.marketMap.get? "X/USD" = some market ∧ "X/USD" = market.tickerText ∧
      (isSingleDefi .onChain market = false → Config.onChain.Admits market.ticker.pair market) ∧
      ∃ kept removals market₀,
        standardFeedChain .onChain (Feed.sortCanonical onChainFeeds) = .ok (kept, removals) ∧
        (aggregate .onChain kept).get? market₀.tickerText = some market₀ ∧
        Config.onChain.Admits market₀.ticker.pair market ∧
        (market.ticker.pair = market₀.ticker.pair ∨
          (market₀.without (Config.onChain.disables market₀.tickerText)).MovesTo .onChain
            market.ticker.pair) := by
  obtain ⟨out, market, -, hrun, hmarket, -⟩ := exists_generateFromFeeds_onChainFeeds
  exact ⟨out, market, hrun, hmarket,
    admits_of_generateFromFeeds (Generator.ofConfig_of_validate Config.validate_onChain) rfl hrun
      hmarket⟩

/-- Markets are filtered before they move, so that a market comes to stand under an excluded pair,
and one under a pair for which its venue is disabled. -/
theorem not_admits_onChain :
    Config.onChain.IsDecoded ∧ Generator.ofConfig .onChain = .ok .onChain ∧
      Config.onChain.overrides = ∅ ∧
      ∃ out, Generator.onChain.generateFromFeeds onChainFeeds = .ok out ∧
        (∃ market, out.marketMap.get? "X/USD" = some market ∧
          Config.onChain.excludedPairs.contains market.ticker.pair = true) ∧
        ∃ market, out.marketMap.get? "Z/USD" = some market ∧
          ∃ e ∈ Config.onChain.disabledProviders.toList, ∃ ticker,
            CurrencyPair.parse e.1 = .ok ticker ∧ ticker.text = "Z/USD" ∧
              ∃ p ∈ market.providers, p.name ∈ e.2 := by
  obtain ⟨out, market, market', hrun, hmarket, hpair, hmarket', hnames⟩ :=
    exists_generateFromFeeds_onChainFeeds
  refine ⟨Config.isDecoded_onChain, Generator.ofConfig_of_validate Config.validate_onChain,
    rfl, out, hrun, ⟨market, hmarket, ?_⟩, market', hmarket', ("Z/USD", ["raydium"]), ?_,
    ⟨"Z", "USD"⟩, ?_, rfl, ?_⟩
  · rw [hpair]
    decide +kernel
  · decide +kernel
  · decide +kernel
  · have hname : "raydium" ∈ market'.providerNames := hnames ▸ List.mem_cons_self
    obtain ⟨p, hp, hname⟩ := List.mem_map.1 hname
    exact ⟨p, hp, hname ▸ List.mem_cons_self⟩

end OracleMarkets
