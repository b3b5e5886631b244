import OracleMarkets.Proofs.Provenance

/-!
# What the final check can still refuse

Markets that are made of the rows of a store stand under their tickers, have decimals in range, ask
for providers and have them, list no venue twice, and are all in use or all not.  So the check at
the end of a generation finds fault only with what rows and operators tell: blank names, texts that
are too long, normalizers without a market, and pairs that on-chain venues tell.
-/

namespace OracleMarkets

variable {c : Config}

/-- A fault of the structure of a market map, and not of what rows and operators tell. -/
def ValidationError.IsStructural : ValidationError → Prop
  | .marketKeyMismatch _ _ => True
  | .invalidDecimals _ _ => True
  | .invalidMinProviderCount _ => True
  | .notEnoughProviders _ _ _ => True
  | .duplicateProvider _ _ => True
  | .disabledNormalizeBy _ _ => True
  | _ => False

/-! ## Feeds -/

/-- The feed is as rows make it: its pair is normal, it asks for a provider, and it is not in
use. -/
structure Feed.Fresh (f : Feed) : Prop where
  pair : f.pair.Normal
  minProviderCount : f.ticker.minProviderCount ≠ 0
  enabled : f.ticker.enabled = false

/-- A consistent configuration asks for a provider at least. -/
theorem Config.minProviderCountFor_ne_zero (hv : c.validate = .ok ()) (name : String) :
    c.minProviderCountFor name ≠ 0 := by
  obtain ⟨hcex, hdex, -⟩ := Config.validate_eq_ok_iff.1 hv
  unfold minProviderCountFor
  split
  · exact hdex
  · exact hcex

/-- The feed of a row is fresh, as a consistent configuration asks for a provider. -/
theorem Feed.fresh_of_feedOfRow (hv : c.validate = .ok ()) {r : VenueRow} {g : Feed}
    (h : feedOfRow c r = .ok g) : g.Fresh := by
  obtain ⟨hpair, hticker, -⟩ := feedOfRow_eq_ok h
  refine ⟨hpair, ?_, ?_⟩
  · rw [hticker]
    exact Config.minProviderCountFor_ne_zero hv r.venue
  · rw [hticker]
    rfl

/-- A feed that is fresh stays so through the chain. -/
theorem SettlesTo.fresh (hc : c.IsDecoded) {g f : Feed} (hf : SettlesTo c g f) (hg : g.Fresh) :
    f.Fresh := by
  refine ⟨hf.normal hc hg.pair, ?_, ?_⟩
  · rw [hf.ticker_eq]
    exact hg.minProviderCount
  · rw [hf.ticker_eq]
    exact hg.enabled

/-! ## Markets -/

/-- The market under `key` has no fault of structure, its number of providers apart, and it is in
use exactly if `inUse`. -/
structure Market.Sound (inUse : Bool) (key : String) (m : Market) : Prop where
  key_eq : key = m.tickerText
  decimals : 1 ≤ m.ticker.decimals ∧ m.ticker.decimals ≤ 36
  minProviderCount : m.ticker.minProviderCount ≠ 0
  nodup : m.providerNames.Nodup
  enabled : m.ticker.enabled = inUse

/-- No two feeds of one ticker are of the same venue. -/
theorem nodup_venues_of_ticker {feeds : List Feed} (hone : OnePerVenue feeds) (key : String) :
    ((feeds.filter fun g ↦ g.tickerText = key).map Feed.venue).Nodup := by
  refine List.pairwise_map.2 ((hone.filter _).imp_of_mem fun {f g} hf hg hfg hvenue ↦ ?_)
  have hticker {f : Feed} (hf : f ∈ feeds.filter fun g ↦ g.tickerText = key) :
      f.tickerText = key := by
    simpa using (List.mem_filter.1 hf).2
  exact hfg ⟨(hticker hf).trans (hticker hg).symm, hvenue⟩

/-- Feeds of which no two share ticker and venue make markets whose structure is in order. -/
theorem sound_aggregate {feeds : List Feed} (hfresh : ∀ f ∈ feeds, f.Fresh)
    (hone : OnePerVenue feeds) :
    (aggregate c feeds).Forall fun key market ↦
      market.Sound false key ∧ market.ticker.pair.Normal := by
  intro key market hmarket
  obtain ⟨f, rest, hfilter, hmade⟩ := exists_isMadeOf_of_get?_aggregate hmarket
  have hf := hfresh f (mem_of_filter_eq_cons hfilter List.mem_cons_self).1
  obtain ⟨price, hdecimals⟩ := hmade.decimals_eq
  refine ⟨⟨keyed_aggregate feeds key market hmarket, ?_, ?_, ?_, ?_⟩, ?_⟩
  · rw [hdecimals]
    exact deriveDecimals_bounds price
  · rw [hmade.minProviderCount_eq]
    exact foldl_max_ne_zero hf.minProviderCount rest
  · have hnames : market.providerNames.Perm ((f :: rest).map Feed.venue) := by
      have hperm := hmade.providers.map (·.name)
      rw [List.map_map] at hperm
      exact hperm
    rw [hnames.nodup_iff, ← hfilter]
    exact nodup_venues_of_ticker hone key
  · rw [hmade.enabled_eq]
    exact hf.enabled
  · rw [hmade.pair_eq]
    exact hf.pair

/-- The chain keeps the structure of a market in order if it does not force the number of
providers. -/
theorem Market.Becomes.sound (hcount : c.minProviderCountOverride = 0) {key₀ key : String}
    {market₀ market : Market} (h : market₀.Becomes c key₀ key market)
    (h₀ : market₀.Sound false key₀) : market.Sound c.enableAll key := by
  refine ⟨?_, ?_, ?_, ?_, ?_⟩
  · rcases h.place with ⟨rfl, hpair⟩ | ⟨hkey, -⟩
    · rw [h₀.key_eq, tickerText, tickerText, hpair]
    · exact hkey
  · rw [h.decimals]
    exact h₀.decimals
  · rw [(h.minProviderCount hcount).1]
    exact h₀.minProviderCount
  · rw [h.providerNames]
    exact h₀.nodup.filter _
  · rw [h.enabled, h₀.enabled, Bool.or_false]

theorem Market.Becomes.pair_eq (hdefi : ∀ name, c.isDefi name = false) {key₀ key : String}
    {market₀ market : Market} (h : market₀.Becomes c key₀ key market) :
    market.ticker.pair = market₀.ticker.pair := by
  rcases h.place with ⟨-, hpair⟩ | ⟨-, hmoves⟩
  · exact hpair
  · exact absurd hmoves (Market.not_movesTo hdefi)

/-- Markets whose structure is in order, that have the providers they ask for, and that are all in
use or all not, have no fault of structure. -/
theorem MarketMap.Fault.not_isStructural {m : MarketMap} {inUse : Bool} {e : ValidationError}
    (hm : m.Forall fun key market ↦ market.Sound inUse key ∧
      market.ticker.minProviderCount.toNat ≤ market.providers.length)
    (h : m.Fault e) : ¬e.IsStructural := by
  cases h with
  | dangling => exact id
  | @disabled key market normalizer n hmarket _ hn henabled hdisabled =>
    rw [(hm key market hmarket).1.enabled] at henabled
    rw [(hm n.text normalizer hn).1.enabled] at hdisabled
    exact absurd henabled (by simp [hdisabled])
  | @market key market _ hmarket h =>
    obtain ⟨hsound, henough⟩ := hm key market hmarket
    -- What rows and operators tell is not structural; other faults contradict a field of `hsound`.
    cases h with
    | key h => exact absurd hsound.key_eq h
    | pair => exact id
    | decimals h =>
      rcases h with h | h
      · exact absurd hsound.decimals.1 (UInt64.not_le.2 h)
      · exact absurd hsound.decimals.2 (UInt64.not_le.2 h)
    | minProviderCount h => exact absurd h hsound.minProviderCount
    | tooFew h => exact absurd henough (Nat.not_le.2 h)
    | metadata => exact id
    | duplicate _ h => exact absurd hsound.nodup h
    | provider _ h => cases h <;> exact id

/-! ## Rows -/

/-- The feeds that the standard chain keeps of the feeds of a store are as rows make them. -/
theorem fresh_of_standardFeedChain (hc : c.IsDecoded) (hv : c.validate = .ok ()) {s : Snapshot}
    {feeds kept : List Feed} {removals : RemovalLog} (hfeeds : queryFeeds c s.venueRows = .ok feeds)
    (hkept : standardFeedChain c (Feed.sortCanonical feeds) = .ok (kept, removals)) :
    ∀ f ∈ kept, f.Fresh := by
  intro f hf
  obtain ⟨g, hg, hgf⟩ := exists_settlesTo_of_standardFeedChain hkept hf
  obtain ⟨r, -, -, hrg⟩ := exists_row_of_queryFeeds hfeeds hg
  exact hgf.fresh hc (Feed.fresh_of_feedOfRow hv hrg)

/-- A row whose venue has no name of its own for the pair. -/
def blankRows : List VenueRow :=
  [{ smallRow "USDT" "USD" 3 0 with key := ⟨"kraken", "", "USDT", "USD"⟩ }]

theorem validate_blankRows :
    (do
      let feeds ← queryFeeds .small (Snapshot.mk blankRows).venueRows
      let (kept, _) ← standardFeedChain .small (Feed.sortCanonical feeds)
      let (m, _) ← standardMarketChain .small (aggregate .small kept)
      return m.validate) = .ok (.error (.emptyOffChainTicker "USDT/USD" "kraken")) := by
  -- The sorts are replaced by insertion, which can be run on closed lists.
  simp only [Snapshot.venueRows_eq_insertionSort, standardFeedChain, feedStages, List.map_cons,
    List.map_nil, Stage.chain, resolveCmcConflicts, references, resolveProviderConflicts, topFeeds,
    splitTop, Feed.sortByRank_eq_insertionSort, Feed.sortCanonical_eq_insertionSort]
  decide +kernel

/-- If a generation from a store comes to the final check of the market map `m`, and no market is
told to ask for other providers or is overridden, then this check finds no fault of structure, and
no pair that is not valid unless some venue is on-chain. -/
theorem not_isStructural_of_validate (hc : c.IsDecoded) (hv : c.validate = .ok ())
    (hcount : c.minProviderCountOverride = 0) (hov : c.overrides = ∅) (s : Snapshot)
    {feeds kept : List Feed} {removals : RemovalLog} {m : MarketMap} {exclusions : ExclusionLog}
    (hfeeds : queryFeeds c s.venueRows = .ok feeds)
    (hkept : standardFeedChain c (Feed.sortCanonical feeds) = .ok (kept, removals))
    (hm : standardMarketChain c (aggregate c kept) = .ok (m, exclusions)) {cause : ValidationError}
    (hcause : m.validate = .error cause) :
    ¬cause.IsStructural ∧
      ((∀ name, c.isDefi name = false) → ∀ value, cause ≠ .invalidCurrencyPair value) := by
  have hfresh := fresh_of_standardFeedChain hc hv hfeeds hkept
  have hone := (selected_of_standardFeedChain hkept).unique
  have hmade : m.Forall fun key market ↦ ∃ (key₀ : String) (market₀ : Market),
      market₀.Becomes c key₀ key market ∧ market₀.Sound false key₀ ∧
        market₀.ticker.pair.Normal := by
    intro key market hmarket
    have hemitted := emitted_of_standardMarketChain hv hov hm key market hmarket
    obtain ⟨key₀, market₀, hmarket₀, hbecomes⟩ := hemitted.exists_becomes
    exact ⟨key₀, market₀, hbecomes, sound_aggregate hfresh hone key₀ market₀ hmarket₀⟩
  have hfault := MarketMap.fault_of_validate hcause
  constructor
  · have hsound : m.Forall fun key market ↦ market.Sound c.enableAll key ∧
        market.ticker.minProviderCount.toNat ≤ market.providers.length := by
      intro key market hmarket
      obtain ⟨_, _, hbecomes, hsound, -⟩ := hmade key market hmarket
      exact ⟨hbecomes.sound hcount hsound, (hbecomes.minProviderCount hcount).2⟩
    exact hfault.not_isStructural hsound
  · -- Only the pair of a market is refused with this error, and it is still that of its feeds.
    rintro hdefi value rfl
    cases hfault with
    | @market key market _ hmarket h =>
      cases h with
      | pair h =>
        obtain ⟨_, _, hbecomes, -, hnormal⟩ := hmade key market hmarket
        rw [hbecomes.pair_eq hdefi] at h
        exact h hnormal.valid
      | provider _ h => cases h

/-- The map of a row without an off-chain ticker is refused, for this ticker. -/
theorem not_isStructural_of_validate_small :
    ∃ feeds kept removals m exclusions cause,
      queryFeeds .small (Snapshot.mk blankRows).venueRows = .ok feeds ∧
      standardFeedChain .small (Feed.sortCanonical feeds) = .ok (kept, removals) ∧
      standardMarketChain .small (aggregate .small kept) = .ok (m, exclusions) ∧
      m.validate = .error cause ∧ ¬cause.IsStructural ∧
        ∀ value, cause ≠ .invalidCurrencyPair value := by
  obtain ⟨feeds, hfeeds, hrun⟩ := bind_eq_ok.1 validate_blankRows
  obtain ⟨⟨kept, removals⟩, hkept, hrun⟩ := bind_eq_ok.1 hrun
  obtain ⟨⟨m, exclusions⟩, hm, hrun⟩ := bind_eq_ok.1 hrun
  have hcause := Except.ok.inj hrun
  obtain ⟨hstructural, hpair⟩ := not_isStructural_of_validate Config.isDecoded_small
    Config.validate_small rfl rfl ⟨blankRows⟩ hfeeds hkept hm hcause
  exact ⟨feeds, kept, removals, m, exclusions, _, hfeeds, hkept, hm, hcause, hstructural,
    hpair Config.isDefi_small⟩

end OracleMarkets
