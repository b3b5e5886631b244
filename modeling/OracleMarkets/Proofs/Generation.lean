import OracleMarkets.Generation
import OracleMarkets.Proofs.Stage.FeedChain
import OracleMarkets.Proofs.Stage.Markets

/-!
# Generating market maps

The result of a generation does not depend on the order in which feeds or rows come, as both are
sorted before anything looks at their order, by keys that tell them apart.  A generation by the
standard chains fails only for want of a price by which others are normalized, or because the final
market map is refused.
-/

namespace OracleMarkets

/-! ## Order of the input -/

instance : Std.TransCmp fun r s : VenueRow ↦ compare r.key s.key :=
  inferInstanceAs (Std.TransCmp (compareOn VenueRow.key))

/-- Rows are sorted by their keys, and rows of one key keep their order. -/
theorem Snapshot.venueRows_eq_insertionSort (s : Snapshot) :
    s.venueRows = fun venues ↦ (s.rows.filter fun r ↦ venues.contains r.venue).insertionSort
      fun r t ↦ r.keyLe t = true := by
  funext venues
  exact mergeSort_eq_insertionSort (fun r t : VenueRow ↦ compare r.key t.key) _

/-- Snapshots of the same rows, of which no two have the same key, give the same answers. -/
theorem Snapshot.venueRows_eq_of_perm {rows rows' : List VenueRow} (h : rows.Perm rows')
    (hkeys : (rows.map VenueRow.key).Nodup) :
    (Snapshot.mk rows).venueRows = (Snapshot.mk rows').venueRows := by
  funext venues
  refine mergeSort_eq_of_perm (fun r s ↦ compare r.key s.key) (h.filter _)
    fun r hr s hs hrs ↦ ?_
  exact List.inj_on_of_nodup_map hkeys (List.mem_of_mem_filter hr) (List.mem_of_mem_filter hs)
    (Std.LawfulEqCmp.eq_of_compare hrs)

/-- A row of one venue without volume or depth. -/
def smallRow (base quote : String) (baseRank quoteRank : UInt64) : VenueRow where
  key := ⟨"kraken", base ++ "-" ++ quote, base, quote⟩
  quoteVolume := 0.0
  usdVolume := 0.0
  metadata := "from " ++ base ++ "-" ++ quote
  referencePrice := 0.0
  negativeDepth := 0.0
  positiveDepth := 0.0
  baseId := 0
  quoteId := 0
  baseRank := baseRank
  quoteRank := quoteRank

/-- The price of a stable coin, and one in it that is seen from the other side. -/
def smallRows : List VenueRow := [smallRow "USDT" "USD" 3 0, smallRow "usdt" "eth" 3 2]

namespace Generator

/-- Neither the order of feeds nor that of rows changes the result, be it a market map with both its
logs or an error.  Feeds that share pair, venue and off-chain ticker have to be the same feed, and
rows have to have different keys. -/
theorem generate_order_independent (g : Generator) :
    (∀ feeds feeds' : List Feed, feeds.Perm feeds' →
      (∀ f ∈ feeds, ∀ f' ∈ feeds, f.pair = f'.pair → f.venue = f'.venue →
        f.provider.offChainTicker = f'.provider.offChainTicker → f = f') →
      g.generateFromFeeds feeds = g.generateFromFeeds feeds') ∧
    ∀ rows rows' : List VenueRow, rows.Perm rows' → (rows.map VenueRow.key).Nodup →
      g.generate (Snapshot.mk rows).venueRows = g.generate (Snapshot.mk rows').venueRows := by
  constructor
  · intro feeds feeds' h heq
    rw [generateFromFeeds, generateFromFeeds, Feed.sortCanonical_eq_of_perm h heq]
  · intro rows rows' h hkeys
    rw [Snapshot.venueRows_eq_of_perm h hkeys]

/-- The standard generator of the small configuration. -/
def small : Generator := { config := .small, config_valid := Config.validate_small }

/-- The small feeds and rows the other way round give the same. -/
theorem generate_order_independent_small :
    small.generateFromFeeds smallFeeds = small.generateFromFeeds smallFeeds.reverse ∧
      small.generate (Snapshot.mk smallRows).venueRows =
        small.generate (Snapshot.mk smallRows.reverse).venueRows := by
  constructor
  · refine (generate_order_independent small).1 _ _ (List.reverse_perm _).symm ?_
    have hpairs : (smallFeeds.map Feed.pair).Nodup := by decide
    exact fun f hf f' hf' hpair _ _ ↦ List.inj_on_of_nodup_map hpairs hf hf' hpair
  · exact (generate_order_independent small).2 _ _ (List.reverse_perm _).symm (by decide)

/-! ## Failures -/

/-- The standard generator of a configuration has this configuration and the standard chains. -/
theorem eq_of_ofConfig {c : Config} {g : Generator} (h : ofConfig c = .ok g) :
    ∃ hv : c.validate = .ok (), g = { config := c, config_valid := hv } := by
  unfold ofConfig at h
  split at h
  · cases h
  · next hv => exact ⟨hv, (Except.ok.inj h).symm⟩

/-- A consistent configuration has a generator. -/
theorem ofConfig_of_validate {c : Config} (hv : c.validate = .ok ()) :
    ofConfig c = .ok { config := c, config_valid := hv } := by
  unfold ofConfig
  split
  · next h =>
    rw [hv] at h
    cases h
  · rfl

/-- A generation that succeeds makes feeds of the rows, keeps some of them, makes a market map of
these, and accepts it. -/
theorem exists_stages_of_generate {c : Config} {g : Generator} (hg : ofConfig c = .ok g)
    {source : RowSource} {out : Generated} (hrun : g.generate source = .ok out) :
    c.validate = .ok () ∧ ∃ feeds kept removals, queryFeeds c source = .ok feeds ∧
      standardFeedChain c (Feed.sortCanonical feeds) = .ok (kept, removals) ∧
      standardMarketChain c (aggregate c kept) = .ok (out.marketMap, out.exclusions) ∧
      out.marketMap.validate = .ok () := by
  obtain ⟨hv, rfl⟩ := eq_of_ofConfig hg
  obtain ⟨feeds, hfeeds, hrun⟩ := bind_eq_ok.1 hrun
  obtain ⟨⟨kept, removals⟩, hkept, hrun⟩ := bind_eq_ok.1 hrun
  obtain ⟨⟨m, exclusions⟩, hm, hrun⟩ := bind_eq_ok.1 hrun
  obtain ⟨hvalid, hrun⟩ := check_bind_eq_ok.1 hrun
  cases hrun
  exact ⟨hv, feeds, kept, removals, hfeeds, hkept, hm, liftValidation_eq_ok.1 hvalid⟩

/-- The standard generator gives a market map, or it lacks the price of a pair by which some quote
is normalized, or it refuses the market map that both chains have made.  So no feed is found without
settings of its quote or venue, none is better than the best of its ticker, and every ticker under
which providers are disabled can be read. -/
theorem generateFromFeeds_failures {c : Config} {g : Generator} (hg : ofConfig c = .ok g)
    (feeds : List Feed) :
    (∃ out, g.generateFromFeeds feeds = .ok out) ∨
      (∃ quote n, c.normalizer? quote = some n ∧
        g.generateFromFeeds feeds = .error (.adjustmentPriceUnavailable n.text)) ∨
      ∃ kept removals m exclusions cause,
        standardFeedChain c (Feed.sortCanonical feeds) = .ok (kept, removals) ∧
        standardMarketChain c (aggregate c kept) = .ok (m, exclusions) ∧
        m.validate = .error cause ∧ g.generateFromFeeds feeds = .error (.validation cause) := by
  obtain ⟨hv, rfl⟩ := eq_of_ofConfig hg
  cases hrun : generateFromFeeds { config := c, config_valid := hv } feeds with
  | ok out => exact .inl ⟨out, rfl⟩
  | error e =>
    right
    rcases bind_eq_error.1 hrun with hfeeds | ⟨⟨kept, removals⟩, hkept, hrun⟩
    · obtain ⟨quote, n, hn, rfl⟩ := (standardFeedChain_meets _).error rfl hfeeds
      exact .inl ⟨quote, n, hn, rfl⟩
    · right
      rcases bind_eq_error.1 hrun with hmarkets | ⟨⟨m, exclusions⟩, hm, hrun⟩
      · obtain ⟨out, hout⟩ := exists_standardMarketChain_eq_ok hv (aggregate c kept)
        exact absurd (hmarkets.symm.trans hout) nofun
      · rcases bind_eq_error.1 hrun with hvalid | ⟨⟨⟩, -, hrun⟩
        · obtain ⟨cause, hcause, rfl⟩ := liftValidation_eq_error.1 hvalid
          exact ⟨kept, removals, m, exclusions, cause, hkept, hm, hcause, rfl⟩
        · cases hrun

theorem generateFromFeeds_failures_small :
    ofConfig .small = .ok small ∧
      ((∃ out, small.generateFromFeeds smallFeeds = .ok out) ∨
        (∃ quote n, Config.small.normalizer? quote = some n ∧
          small.generateFromFeeds smallFeeds = .error (.adjustmentPriceUnavailable n.text)) ∨
        ∃ kept removals m exclusions cause,
          standardFeedChain .small (Feed.sortCanonical smallFeeds) = .ok (kept, removals) ∧
          standardMarketChain .small (aggregate .small kept) = .ok (m, exclusions) ∧
          m.validate = .error cause ∧
          small.generateFromFeeds smallFeeds = .error (.validation cause)) :=
  ⟨ofConfig_of_validate Config.validate_small,
    generateFromFeeds_failures (ofConfig_of_validate Config.validate_small) smallFeeds⟩

end Generator

end OracleMarkets
