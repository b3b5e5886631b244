import OracleMarkets.Proofs.RowStore

/-!
# Generating from a warehouse

Rows that are taken in by a warehouse, in any order and in any batches, give the same market map as
the list of these rows.  The warehouse puts symbols in upper case and the rows in another order, but
the pair of a feed is in upper case anyway, and feeds are sorted before they are looked at.
-/

namespace OracleMarkets

variable {c : Config}

/-- A row that is taken in and makes a feed, with ids and ranks that a warehouse keeps. -/
structure VenueRow.Storable (r : VenueRow) : Prop where
  valid : r.validate = .ok ()
  pair : (CurrencyPair.ofSymbols r.key.base r.key.quote).validate = .ok ()
  baseId : r.baseId.toNat ≤ 2 ^ 63 - 1
  quoteId : r.quoteId.toNat ≤ 2 ^ 63 - 1
  baseRank : r.baseRank.toNat ≤ 2 ^ 63 - 1
  quoteRank : r.quoteRank.toNat ≤ 2 ^ 63 - 1

/-- What tells the feeds of rows apart: the venue, its own name of the pair, and the pair. -/
def RowKey.observed (k : RowKey) : String × String × CurrencyPair :=
  (k.provider, k.offChainTicker, .ofSymbols k.base k.quote)

theorem RowKey.observed_upper (k : RowKey) : k.upper.observed = k.observed := by
  rw [observed, upper, CurrencyPair.ofSymbols_upper, observed]

/-! ## The feeds of rows -/

/-- The feed of a row, whether or not its symbols make a valid pair. -/
def VenueRow.feed (c : Config) (r : VenueRow) : Feed where
  ticker := .ofPair (.ofSymbols r.key.base r.key.quote) (c.minProviderCountFor r.venue)
  provider := { ProviderConfig.ofVenue r.venue r.key.offChainTicker with metadata := r.metadata }
  quoteVolume := r.quoteVolume
  usdVolume := r.usdVolume
  referencePrice := r.referencePrice
  liquidity := ⟨r.negativeDepth, r.positiveDepth⟩
  cmc := ⟨r.baseId, r.quoteId, r.baseRank, r.quoteRank⟩

/-- A row whose symbols make a valid pair has a feed. -/
theorem VenueRow.feedOfRow_eq {r : VenueRow}
    (h : (CurrencyPair.ofSymbols r.key.base r.key.quote).validate = .ok ()) :
    feedOfRow c r = .ok (r.feed c) := by
  rw [feedOfRow, h]
  rfl

theorem capSigned_eq_self {n : UInt64} (h : n.toNat ≤ 2 ^ 63 - 1) : capSigned n = n := by
  apply UInt64.toNat_inj.1
  rw [toNat_capSigned, Nat.min_eq_left h]

/-- A row makes the same feed when it is kept. -/
theorem VenueRow.Storable.feed_kept {r : VenueRow} (h : r.Storable) :
    r.kept.feed c = r.feed c := by
  simp only [feed, kept, RowKey.upper, venue, CurrencyPair.ofSymbols_upper,
    capSigned_eq_self h.baseId, capSigned_eq_self h.quoteId, capSigned_eq_self h.baseRank,
    capSigned_eq_self h.quoteRank]

/-- A row makes a valid pair when it is kept. -/
theorem VenueRow.Storable.pair_kept {r : VenueRow} (h : r.Storable) :
    (CurrencyPair.ofSymbols r.kept.key.base r.kept.key.quote).validate = .ok () := by
  rw [key_kept, RowKey.upper, CurrencyPair.ofSymbols_upper, h.pair]

/-- The feeds of the rows of all venues of a configuration. -/
def configuredFeeds (c : Config) (rows : List VenueRow) : List Feed :=
  (rows.filter fun r ↦ c.providerNames.contains r.venue).map (VenueRow.feed c)

/-- The feeds of a snapshot are those of its rows, in some order. -/
theorem exists_queryFeeds_eq_ok {rows : List VenueRow}
    (h : ∀ r ∈ rows, (CurrencyPair.ofSymbols r.key.base r.key.quote).validate = .ok ()) :
    ∃ feeds, queryFeeds c (Snapshot.mk rows).venueRows = .ok feeds ∧
      feeds.Perm (configuredFeeds c rows) := by
  have hsorted := List.mergeSort_perm (rows.filter fun r ↦ c.providerNames.contains r.venue)
    VenueRow.keyLe
  refine ⟨_, mapM_eq_ok_map fun r hr ↦ VenueRow.feedOfRow_eq (h r ?_), hsorted.map _⟩
  exact List.mem_of_mem_filter (hsorted.mem_iff.1 hr)

/-- Rows make the same feeds when they are kept. -/
theorem configuredFeeds_kept {rows : List VenueRow} (h : ∀ r ∈ rows, r.Storable) :
    configuredFeeds c (rows.map VenueRow.kept) = configuredFeeds c rows := by
  rw [configuredFeeds, List.filter_map, List.map_map]
  exact List.map_congr_left fun r hr ↦ (h r (List.mem_of_mem_filter hr)).feed_kept

/-! ## Stores of the same rows -/

section Distinct

variable {rows : List VenueRow} (hdistinct : (rows.map fun r ↦ r.key.observed).Nodup)

include hdistinct

/-- Rows that are told apart by what they observe are kept side by side. -/
theorem lastWrites_of_nodup_observed : lastWrites rows = rows.map VenueRow.kept := by
  have hupper : (RowKey.observed ∘ fun r : VenueRow ↦ r.key.upper) = fun r ↦ r.key.observed :=
    funext fun r ↦ r.key.observed_upper
  refine lastWrites_of_nodup (List.Nodup.of_map RowKey.observed ?_)
  rwa [List.map_map, hupper]

/-- The feeds of such rows are told apart by pair, venue and off-chain ticker. -/
theorem feed_eq_of_observed {f f' : Feed} (hf : f ∈ configuredFeeds c rows)
    (hf' : f' ∈ configuredFeeds c rows) (hpair : f.pair = f'.pair) (hvenue : f.venue = f'.venue)
    (hticker : f.provider.offChainTicker = f'.provider.offChainTicker) : f = f' := by
  obtain ⟨r, hr, rfl⟩ := List.mem_map.1 hf
  obtain ⟨r', hr', rfl⟩ := List.mem_map.1 hf'
  have hobserved : r.key.observed = r'.key.observed :=
    Prod.ext hvenue (Prod.ext hticker hpair)
  rw [List.inj_on_of_nodup_map hdistinct (List.mem_of_mem_filter hr) (List.mem_of_mem_filter hr')
    hobserved]

end Distinct

/-- Rows that are storable and make different feeds may be taken in by a warehouse in any order and
in any batches: no batch is refused, and the warehouse generates what the list of the rows does, be
it a market map with both its logs or an error. -/
theorem Generator.generate_ingested (g : Generator) {rows : List VenueRow}
    {batches : List (List VenueRow)} (hrows : ∀ r ∈ rows, r.Storable)
    (hdistinct : (rows.map fun r ↦ r.key.observed).Nodup) (hbatches : batches.flatten.Perm rows) :
    ∃ w, batches.foldlM Warehouse.ingest .empty = .ok w ∧
      g.generate (Snapshot.mk rows).venueRows = g.generate w.venueRows := by
  have hflat : ∀ r ∈ batches.flatten, r.Storable := fun r hr ↦ hrows r (hbatches.mem_iff.1 hr)
  have hkept : lastWrites batches.flatten = batches.flatten.map VenueRow.kept :=
    lastWrites_of_nodup_observed ((hbatches.map _).nodup_iff.2 hdistinct)
  refine ⟨_, Warehouse.foldlM_ingest_of_valid (fun r hr ↦ (hflat r hr).valid) .empty, ?_⟩
  obtain ⟨feeds, hfeeds, hperm⟩ :=
    exists_queryFeeds_eq_ok (c := g.config) fun r hr ↦ (hrows r hr).pair
  obtain ⟨feeds', hfeeds', hperm'⟩ := exists_queryFeeds_eq_ok (c := g.config)
    (List.forall_mem_map.2 fun r hr ↦ (hflat r hr).pair_kept)
  rw [configuredFeeds_kept hflat] at hperm'
  have hrowFeeds :
      (configuredFeeds g.config rows).Perm (configuredFeeds g.config batches.flatten) :=
    ((hbatches.filter _).map _).symm
  have hfeedsPerm : feeds.Perm feeds' := hperm.trans (hrowFeeds.trans hperm'.symm)
  have hsorted : Feed.sortCanonical feeds = Feed.sortCanonical feeds' :=
    Feed.sortCanonical_eq_of_perm hfeedsPerm fun f hf f' hf' ↦
      feed_eq_of_observed hdistinct (hperm.mem_iff.1 hf) (hperm.mem_iff.1 hf')
  rw [Warehouse.venueRows_foldl_write, hkept, generate, generate, hfeeds, hfeeds']
  change g.generateFromFeeds feeds = g.generateFromFeeds feeds'
  rw [generateFromFeeds, generateFromFeeds, hsorted]

theorem storable_smallRows : ∀ r ∈ smallRows, r.Storable := by
  refine List.forall_mem_cons.2 ⟨?_, List.forall_mem_singleton.2 ?_⟩
  · exact ⟨by decide, by decide, by decide, by decide, by decide, by decide⟩
  · exact ⟨by decide, by decide, by decide, by decide, by decide, by decide⟩

/-- The small rows the other way round, with a batch of no rows between them. -/
def smallBatches : List (List VenueRow) :=
  [[smallRow "usdt" "eth" 3 2], [], [smallRow "USDT" "USD" 3 0]]

/-- The small rows give the same map from a warehouse that took them in the other way round. -/
theorem Generator.generate_ingested_small :
    (∀ r ∈ smallRows, r.Storable) ∧ (smallRows.map fun r ↦ r.key.observed).Nodup ∧
      smallBatches.flatten.Perm smallRows ∧
      ∃ w, smallBatches.foldlM Warehouse.ingest .empty = .ok w ∧
        w.table.keys =
          [⟨"kraken", "USDT-USD", "USDT", "USD"⟩, ⟨"kraken", "usdt-eth", "USDT", "ETH"⟩] ∧
        small.generate (Snapshot.mk smallRows).venueRows = small.generate w.venueRows := by
  have hdistinct : (smallRows.map fun r ↦ r.key.observed).Nodup := by decide
  have hbatches : smallBatches.flatten.Perm smallRows := .swap _ _ []
  have hkeys : (smallBatches.foldlM Warehouse.ingest .empty).map (fun w ↦ w.table.keys) = .ok
      [⟨"kraken", "USDT-USD", "USDT", "USD"⟩, ⟨"kraken", "usdt-eth", "USDT", "ETH"⟩] := by
    decide +kernel
  obtain ⟨w, hw, hgenerate⟩ := small.generate_ingested storable_smallRows hdistinct hbatches
  rw [hw] at hkeys
  exact ⟨storable_smallRows, hdistinct, hbatches, w, hw, Except.ok.inj hkeys, hgenerate⟩

end OracleMarkets
