import OracleMarkets.Proofs.Aggregate
import OracleMarkets.Proofs.Stage.MeanPrices
import OracleMarkets.Proofs.Stage.Winners

/-!
# Markets as groups of feeds

`aggregate` makes one market of each group of feeds with one ticker, and nothing else
(`aggregate_groups`).  The providers, the number of providers asked for and the price of a market
are told by its own group; its depth is that of all feeds about the assets of the first feed of the
group, whatever their ticker.
-/

namespace OracleMarkets

variable {c : Config} {feeds : List Feed} {ticker : String}

/-! ## Providers in order -/

theorem le_of_isLE_compare {s t : String} (h : (compare s t).isLE = true) : s ≤ t := by
  apply String.not_lt.1
  intro hlt
  have hcmp : compare t s = .lt := compareOfLessAndEq_eq_lt.2 hlt
  rw [Std.OrientedCmp.gt_of_lt hcmp] at h
  cases h

/-- `ordered` are the providers `given` in the stable order of their names. -/
structure InNameOrder (given ordered : List ProviderConfig) : Prop where
  perm : ordered.Perm given
  ascending : ordered.Pairwise fun p q ↦ p.name ≤ q.name
  /-- Providers of one name keep their order. -/
  stable : ∀ name, (ordered.filter fun p ↦ p.name = name) = given.filter fun p ↦ p.name = name

/-- Sorting puts providers in the order of their names, and those of one name stay in theirs. -/
theorem Market.inNameOrder_sortProviders (m : Market) :
    InNameOrder m.providers m.sortProviders.providers := by
  constructor
  · exact List.mergeSort_perm _ _
  · have hsorted := pairwise_mergeSort_isLE (fun p q : ProviderConfig ↦ compare p.name q.name)
      m.providers
    exact hsorted.imp le_of_isLE_compare
  · intro name
    refine filter_mergeSort_of_isLE (fun p q : ProviderConfig ↦ compare p.name q.name)
      (fun p q hp hq ↦ ?_) m.providers
    -- Among providers of one name, the order asks for nothing.
    simp [of_decide_eq_true hp, of_decide_eq_true hq]

/-! ## Depths -/

/-- The depth of all feeds about a pair of assets, added up in the order of the list. -/
def pooledDepth (c : Config) (feeds : List Feed) (a : UInt64 × UInt64) : Float :=
  ((feeds.filter fun f ↦ f.assets c = a).map (·.liquidity.total)).foldl (· + ·) 0.0

/-- The depth that a market takes for the assets of a feed. -/
theorem getD_liquidityByIdentity (c : Config) (feeds : List Feed) (f : Feed) :
    (liquidityByIdentity c feeds).getD (identityKey c f) 0.0 =
      pooledDepth c feeds (f.assets c) := by
  have hgroup : (feeds.filter fun g ↦ identityKey c g = identityKey c f) =
      feeds.filter fun g ↦ g.assets c = f.assets c := by
    simp only [identityKey_eq, assetsText_injective.eq_iff]
  rw [SortedMap.getD, liquidityByIdentity, SortedMap.get?_mapValues, SortedMap.get?_groupBy, hgroup,
    pooledDepth, List.foldl_map]
  split
  · next hnil =>
    rw [hnil]
    rfl
  · rfl

/-! ## Groups -/

def feedsOf (feeds : List Feed) (ticker : String) : List Feed :=
  feeds.filter fun f ↦ f.tickerText = ticker

theorem mem_feedsOf {f : Feed} : f ∈ feedsOf feeds ticker ↔ f ∈ feeds ∧ f.tickerText = ticker := by
  simp [feedsOf]

/-- The metadata of a group of feeds, at the given depth of its assets. -/
def groupMetadata (depth : Float) (first : Feed) (rest : List Feed) : CoreMetadata :=
  let price := meanPrice (first :: rest)
  .ofPrice price (deriveDecimals price) depth first.cmc.baseId

/-- The market of a group of feeds, at the given depth of its assets. -/
def Market.ofGroup (depth : Float) (first : Feed) (rest : List Feed) : Market :=
  let ticker : Ticker :=
    { pair := first.pair
      decimals := deriveDecimals (meanPrice (first :: rest))
      minProviderCount :=
        rest.foldl (fun n f ↦ max n f.ticker.minProviderCount) first.ticker.minProviderCount
      enabled := first.ticker.enabled
      metadata := (groupMetadata depth first rest).text }
  sortProviders ⟨ticker, (first :: rest).map (·.provider)⟩

/-- A feed opens a market at the mean price of its group. -/
theorem getD_averagePrices {f : Feed} (h : f ∈ feeds) :
    (averagePrices feeds).getD f.tickerText 0.0 = meanPrice (feedsOf feeds f.tickerText) := by
  rw [SortedMap.getD, get?_averagePrices, if_pos ⟨f, h, rfl⟩]
  rfl

/-- The market at a ticker is told by the feeds of the ticker and the depth of the assets of the
first one. -/
theorem get?_aggregate_eq_ofGroup (c : Config) (feeds : List Feed) (ticker : String) :
    (aggregate c feeds).get? ticker =
      match feedsOf feeds ticker with
      | [] => none
      | first :: rest => some (.ofGroup (pooledDepth c feeds (first.assets c)) first rest) := by
  rw [get?_aggregate, ← feedsOf]
  cases hgroup : feedsOf feeds ticker with
  | nil => rfl
  | cons first rest =>
    obtain ⟨hfirst, rfl⟩ := mem_feedsOf.1 (hgroup ▸ List.mem_cons_self)
    have hprice := getD_averagePrices hfirst
    rw [hgroup] at hprice
    refine congrArg (fun m ↦ some (Market.sortProviders m)) ?_
    rw [Market.mk.injEq, ticker_foldl_addFeed, providers_foldl_addFeed]
    refine ⟨?_, rfl⟩
    simp only [openMarket, hprice, getD_liquidityByIdentity]
    rfl

/-- `market` is the market of the feeds of one ticker, of which `first` is the first. -/
structure Market.IsGroupOf (c : Config) (feeds : List Feed) (ticker : String) (first : Feed)
    (market : Market) : Prop where
  pair_eq : market.ticker.pair = first.pair
  enabled_eq : market.ticker.enabled = first.ticker.enabled
  decimals_eq : market.ticker.decimals = deriveDecimals (meanPrice (feedsOf feeds ticker))
  /-- The metadata tell that price, and the id of the base and the depth of the assets of the first
  feed. -/
  metadata_eq : market.ticker.metadata =
    (CoreMetadata.ofPrice (meanPrice (feedsOf feeds ticker)) market.ticker.decimals
      (pooledDepth c feeds (first.assets c)) first.cmc.baseId).text
  /-- The market asks for as many providers as the feed of the group that asks for most. -/
  minProviderCount_eq :
    ((feedsOf feeds ticker).map (·.ticker.minProviderCount)).max? =
      some market.ticker.minProviderCount
  providers : InNameOrder ((feedsOf feeds ticker).map (·.provider)) market.providers

theorem Market.isGroupOf_ofGroup {first : Feed} {rest : List Feed}
    (h : feedsOf feeds ticker = first :: rest) :
    (ofGroup (pooledDepth c feeds (first.assets c)) first rest).IsGroupOf c feeds ticker first := by
  constructor
  · rfl
  · rfl
  · rw [h]
    rfl
  · rw [h]
    rfl
  · rw [h, List.map_cons, List.max?_cons', List.foldl_map]
    rfl
  · rw [h]
    exact inNameOrder_sortProviders ⟨_, (first :: rest).map (·.provider)⟩

/-- There is exactly one market for every ticker of a feed.  It stands under that ticker and is what
the feeds of the ticker make: the first of them tells its pair, whether it is in use and the id of
its base, they all tell its decimals by their mean price, the one that asks for most providers
decides how many it asks for, and its providers are theirs in the stable order of their names. -/
theorem aggregate_groups (c : Config) (feeds : List Feed) (ticker : String) :
    ((aggregate c feeds).contains ticker = true ↔ ∃ f ∈ feeds, f.tickerText = ticker) ∧
      ∀ market, (aggregate c feeds).get? ticker = some market →
        market.tickerText = ticker ∧
          ∃ first, (feedsOf feeds ticker).head? = some first ∧
            market.IsGroupOf c feeds ticker first := by
  rw [SortedMap.contains, get?_aggregate_eq_ofGroup]
  cases hgroup : feedsOf feeds ticker with
  | nil =>
    have hnone : ∀ f ∈ feeds, f.tickerText ≠ ticker := by
      intro f hf hticker
      have hmem := mem_feedsOf.2 ⟨hf, hticker⟩
      rw [hgroup] at hmem
      cases hmem
    simpa using hnone
  | cons first rest =>
    have hfirst := mem_feedsOf.1 (hgroup ▸ List.mem_cons_self)
    refine ⟨⟨fun _ ↦ ⟨first, hfirst⟩, fun _ ↦ rfl⟩, fun market hmarket ↦ ?_⟩
    cases hmarket
    exact ⟨hfirst.2, first, rfl, Market.isGroupOf_ofGroup hgroup⟩

end OracleMarkets
