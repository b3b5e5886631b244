import Mathlib.Data.UInt
import OracleMarkets.Aggregate
import OracleMarkets.Proofs.Market
import OracleMarkets.Proofs.Sorting

/-!
# The markets of a list of feeds

The market at a ticker is the one that the feeds of this ticker make in their order: the first opens
it, and each of the others adds its provider.  So a market has the pair of a feed of its ticker, and
its providers are those of all feeds of its ticker.
-/

namespace OracleMarkets

variable {c : Config}

/-- The decimals of a price are in range, whatever the price. -/
theorem deriveDecimals_bounds (price : Float) :
    1 ≤ deriveDecimals price ∧ deriveDecimals price ≤ 36 := by
  unfold deriveDecimals
  split
  · rw [UInt64.max_def, UInt64.min_def]
    grind
  · decide

/-- Further feeds only change how many providers a market asks for. -/
theorem ticker_foldl_addFeed (m : Market) (feeds : List Feed) :
    (feeds.foldl Market.addFeed m).ticker =
      { m.ticker with
        minProviderCount :=
          feeds.foldl (fun n f ↦ max n f.ticker.minProviderCount) m.ticker.minProviderCount } := by
  induction feeds generalizing m with
  | nil => rfl
  | cons f feeds ih => exact ih (m.addFeed f)

/-- A market whose first feed asks for a provider asks for one. -/
theorem foldl_max_ne_zero {n : UInt64} (hn : n ≠ 0) (feeds : List Feed) :
    feeds.foldl (fun n f ↦ max n f.ticker.minProviderCount) n ≠ 0 := by
  induction feeds generalizing n with
  | nil => exact hn
  | cons f feeds ih =>
    have hmax : max n f.ticker.minProviderCount ≠ 0 := by
      rw [UInt64.max_def]
      grind
    exact ih hmax

theorem providers_foldl_addFeed (m : Market) (feeds : List Feed) :
    (feeds.foldl Market.addFeed m).providers = m.providers ++ feeds.map (·.provider) := by
  induction feeds generalizing m with
  | nil => rw [List.map_nil, List.append_nil, List.foldl_nil]
  | cons f feeds ih =>
    rw [List.foldl_cons, ih, Market.addFeed, List.map_cons, List.append_assoc,
      List.singleton_append]

/-- The market that feeds of one ticker make in their order. -/
theorem foldl_addFeed_some (opened : Feed → Market) (m : Market) (feeds : List Feed) :
    feeds.foldl (fun market f ↦ some ((market.map fun m ↦ m.addFeed f).getD (opened f))) (some m) =
      some (feeds.foldl Market.addFeed m) := by
  induction feeds generalizing m with
  | nil => rfl
  | cons f feeds ih => exact ih (m.addFeed f)

instance : Std.TransCmp fun p q : ProviderConfig ↦ compare p.name q.name :=
  inferInstanceAs (Std.TransCmp (compareOn ProviderConfig.name))

theorem Market.sortProviders_eq_insertionSort (m : Market) :
    m.sortProviders = { m with
      providers := m.providers.insertionSort fun p q ↦ providerLe p q = true } := by
  rw [sortProviders]
  congr 1
  exact mergeSort_eq_insertionSort (fun p q : ProviderConfig ↦ compare p.name q.name) _

/-- The market at a ticker is made of the feeds of that ticker. -/
theorem get?_aggregate (feeds : List Feed) (key : String) :
    (aggregate c feeds).get? key =
      match feeds.filter fun f ↦ f.tickerText = key with
      | [] => none
      | f :: rest => some (rest.foldl Market.addFeed
          (openMarket c (averagePrices feeds) (liquidityByIdentity c feeds) f)).sortProviders := by
  rw [aggregate, SortedMap.get?_mapValues, SortedMap.get?_foldl_alter]
  cases feeds.filter fun f ↦ f.tickerText = key with
  | nil => rfl
  | cons f rest =>
    rw [List.foldl_cons]
    exact congrArg (Option.map Market.sortProviders) (foldl_addFeed_some _ _ rest)

/-- `market` is what the feeds of one ticker make, of which `f` is the first. -/
structure Market.IsMadeOf (market : Market) (f : Feed) (rest : List Feed) : Prop where
  pair_eq : market.ticker.pair = f.pair
  enabled_eq : market.ticker.enabled = f.ticker.enabled
  /-- The feed that asks for most providers decides. -/
  minProviderCount_eq : market.ticker.minProviderCount =
    rest.foldl (fun n g ↦ max n g.ticker.minProviderCount) f.ticker.minProviderCount
  decimals_eq : ∃ price, market.ticker.decimals = deriveDecimals price
  providers : market.providers.Perm ((f :: rest).map (·.provider))

/-- Every market is made of the feeds of its ticker, of which there is a first one. -/
theorem exists_isMadeOf_of_get?_aggregate {feeds : List Feed} {key : String} {market : Market}
    (h : (aggregate c feeds).get? key = some market) :
    ∃ f rest, (feeds.filter fun g ↦ g.tickerText = key) = f :: rest ∧ market.IsMadeOf f rest := by
  rw [get?_aggregate] at h
  cases hg : feeds.filter fun g ↦ g.tickerText = key with
  | nil =>
    rw [hg] at h
    cases h
  | cons f rest =>
    rw [hg] at h
    refine ⟨f, rest, rfl, ?_⟩
    rw [← Option.some.inj h, Market.sortProviders]
    constructor
    · rw [ticker_foldl_addFeed]
      rfl
    · rw [ticker_foldl_addFeed]
      rfl
    · rw [ticker_foldl_addFeed]
      rfl
    · rw [ticker_foldl_addFeed]
      exact ⟨_, rfl⟩
    · rw [providers_foldl_addFeed]
      exact List.mergeSort_perm _ _

/-- The feeds of one ticker are feeds of the list. -/
theorem mem_of_filter_eq_cons {feeds : List Feed} {key : String} {f g : Feed} {rest : List Feed}
    (h : (feeds.filter fun g ↦ g.tickerText = key) = f :: rest) (hg : g ∈ f :: rest) :
    g ∈ feeds ∧ g.tickerText = key := by
  rw [← h] at hg
  simpa using hg

/-- A market has the pair of a feed of its ticker, and every provider is that of such a feed. -/
theorem mem_of_get?_aggregate {feeds : List Feed} {key : String} {market : Market}
    (h : (aggregate c feeds).get? key = some market) :
    (∃ f ∈ feeds, f.tickerText = key ∧ market.ticker.pair = f.pair) ∧
      ∀ p ∈ market.providers, ∃ f ∈ feeds, f.tickerText = key ∧ p = f.provider := by
  obtain ⟨f, rest, hfilter, hmade⟩ := exists_isMadeOf_of_get?_aggregate h
  obtain ⟨hf, hkey⟩ := mem_of_filter_eq_cons hfilter List.mem_cons_self
  refine ⟨⟨f, hf, hkey, hmade.pair_eq⟩, fun p hp ↦ ?_⟩
  obtain ⟨g, hg, rfl⟩ := List.mem_map.1 (hmade.providers.mem_iff.1 hp)
  obtain ⟨hg, hkey⟩ := mem_of_filter_eq_cons hfilter hg
  exact ⟨g, hg, hkey, rfl⟩

/-- Every market stands under its ticker. -/
theorem keyed_aggregate (feeds : List Feed) : (aggregate c feeds).Keyed := by
  intro key market hmarket
  obtain ⟨⟨f, -, hkey, hpair⟩, -⟩ := mem_of_get?_aggregate hmarket
  rw [Market.tickerText, hpair]
  exact hkey.symm

end OracleMarkets
