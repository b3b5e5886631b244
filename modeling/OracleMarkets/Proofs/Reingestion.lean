import OracleMarkets.Proofs.Ingestion

/-!
# Rows that are taken in again

A warehouse puts a row in the place of the one before if their keys are the same in upper case.  The
pair of a feed is trimmed, too.  So two rows whose symbols differ in the blanks around them are kept
side by side, and the feeds of both, the stale one and the latest, are of one pair, one venue and
one off-chain ticker.  That is the only way in which it happens (`feeds_observed_once_iff`), and it
does not happen to trimmed symbols.
-/

namespace OracleMarkets

variable {c : Config} {rows : List VenueRow} {feeds : List Feed}

/-! ## The last rows -/

/-- The last rows are what becomes of the last row of each key. -/
theorem mem_lastWrites_iff_exists {s : VenueRow} :
    s ∈ lastWrites rows ↔
      ∃ r, (rows.filter fun t ↦ t.key.upper = r.key.upper).getLast? = some r ∧ s = r.kept := by
  rw [mem_lastWrites, Option.map_eq_some_iff]
  constructor
  · rintro ⟨r, hr, rfl⟩
    exact ⟨r, hr, rfl⟩
  · rintro ⟨r, hr, rfl⟩
    exact ⟨r, hr, rfl⟩

/-- Every row has a last one of its key. -/
theorem exists_mem_lastWrites {r : VenueRow} (hr : r ∈ rows) :
    ∃ s ∈ lastWrites rows, s.key = r.key.upper := by
  have hne : (rows.filter fun t ↦ t.key.upper = r.key.upper) ≠ [] :=
    List.ne_nil_of_mem (List.mem_filter.2 ⟨hr, by simp⟩)
  obtain ⟨t, ht⟩ : ∃ t, (rows.filter fun t ↦ t.key.upper = r.key.upper).getLast? = some t :=
    ⟨_, List.getLast?_eq_some_getLast hne⟩
  have hkey : t.key.upper = r.key.upper := by
    simpa using (List.mem_filter.1 (List.mem_of_getLast? ht)).2
  rw [← hkey] at ht ⊢
  exact ⟨t.kept, mem_lastWrites_iff_exists.2 ⟨t, ht, rfl⟩, rfl⟩

/-! ## The feeds of the last rows -/

/-- What tells feeds apart: the venue, its own name of the pair, and the pair. -/
def Feed.observed (f : Feed) : String × String × CurrencyPair :=
  (f.venue, f.provider.offChainTicker, f.pair)

theorem VenueRow.feed_of_feedOfRow {r : VenueRow} {f : Feed} (h : feedOfRow c r = .ok f) :
    r.feed c = f := by
  rw [feedOfRow, check_bind_eq_ok] at h
  exact Except.ok.inj h.2

/-- If a snapshot gives feeds, they are those of its rows, in some order. -/
theorem perm_configuredFeeds (h : queryFeeds c (Snapshot.mk rows).venueRows = .ok feeds) :
    feeds.Perm (configuredFeeds c rows) := by
  have hsorted := List.mergeSort_perm (rows.filter fun r ↦ c.providerNames.contains r.venue)
    VenueRow.keyLe
  have hfeeds : List.Forall₂ (fun r f ↦ r.feed c = f)
      ((Snapshot.mk rows).venueRows c.providerNames) feeds :=
    (mapM_eq_ok_iff.1 h).imp fun _ _ ↦ VenueRow.feed_of_feedOfRow
  rw [← List.forall₂_map_left_iff, List.forall₂_eq_eq_eq] at hfeeds
  rw [← hfeeds]
  exact hsorted.map _

/-- Of the last rows no two are observed alike exactly if rows that are observed alike have the same
key in upper case. -/
theorem nodup_observed_iff :
    ((configuredFeeds c (lastWrites rows)).map Feed.observed).Nodup ↔
      ∀ r ∈ rows, ∀ s ∈ rows, c.providerNames.contains r.venue = true →
        r.key.observed = s.key.observed → r.key.upper = s.key.upper := by
  have hkeys := nodup_key_lastWrites rows
  rw [configuredFeeds, List.map_map, List.nodup_map_iff_inj_on (hkeys.of_map.filter _)]
  constructor
  · intro hinj r hr s hs hvenue hobserved
    obtain ⟨x, hx, hxkey⟩ := exists_mem_lastWrites hr
    obtain ⟨y, hy, hykey⟩ := exists_mem_lastWrites hs
    -- Rows that are observed alike come from the same venue, so both are of a configured one.
    have hsame : r.venue = s.venue := congrArg Prod.fst hobserved
    have hxvenue : x.venue = r.venue := by
      rw [VenueRow.venue, hxkey]
      rfl
    have hyvenue : y.venue = r.venue := by
      rw [hsame, VenueRow.venue, hykey]
      rfl
    have hxy : x.key.observed = y.key.observed := by
      rw [hxkey, hykey, RowKey.observed_upper, RowKey.observed_upper, hobserved]
    rw [← hxkey, ← hykey, hinj x (List.mem_filter.2 ⟨hx, hxvenue ▸ hvenue⟩) y
      (List.mem_filter.2 ⟨hy, hyvenue ▸ hvenue⟩) hxy]
  · intro h x hx y hy hxy
    obtain ⟨hx, hvenue⟩ := List.mem_filter.1 hx
    have hy := List.mem_of_mem_filter hy
    obtain ⟨r, hr, rfl⟩ := exists_mem_of_mem_lastWrites hx
    obtain ⟨s, hs, rfl⟩ := exists_mem_of_mem_lastWrites hy
    have hobserved : r.key.observed = s.key.observed := by
      rw [← r.key.observed_upper, ← s.key.observed_upper]
      exact hxy
    exact List.inj_on_of_nodup_map hkeys hx hy (h r hr s hs hvenue hobserved)

/-! ## Trimmed symbols -/

/-- No blank stands around a symbol. -/
structure RowKey.Trimmed (k : RowKey) : Prop where
  base : Text.trim k.base = k.base
  quote : Text.trim k.quote = k.quote

/-- Rows of trimmed symbols are observed alike exactly if they have the same key in upper case. -/
theorem RowKey.Trimmed.observed_eq_iff {k l : RowKey} (hk : k.Trimmed) (hl : l.Trimmed) :
    k.observed = l.observed ↔ k.upper = l.upper := by
  rw [observed, observed, CurrencyPair.ofSymbols, CurrencyPair.ofSymbols, hk.base, hk.quote,
    hl.base, hl.quote, upper, upper]
  simp only [Prod.mk.injEq, CurrencyPair.mk.injEq, RowKey.mk.injEq]

/-! ## Feeds of a warehouse -/

/-- After any batches, of which some may have been refused, every feed is that of the last row of
its key, and no two feeds are of the same pair, venue and off-chain ticker exactly if accepted rows
that would make such feeds have the same key in upper case.  If all symbols are trimmed, there are
no two such feeds, and each is that of the last accepted row that was observed like it. -/
theorem feeds_observed_once_iff (batches : List (List VenueRow))
    (h : queryFeeds c (Warehouse.ofBatches batches).venueRows = .ok feeds) :
    (∀ f ∈ feeds, ∃ r, ((Warehouse.accepted batches).filter fun s ↦
      s.key.upper = r.key.upper).getLast? = some r ∧ f = r.kept.feed c) ∧
    ((feeds.map Feed.observed).Nodup ↔
      ∀ r ∈ Warehouse.accepted batches, ∀ s ∈ Warehouse.accepted batches,
        c.providerNames.contains r.venue = true → r.key.observed = s.key.observed →
          r.key.upper = s.key.upper) ∧
    ((∀ r ∈ Warehouse.accepted batches, r.key.Trimmed) →
      (feeds.map Feed.observed).Nodup ∧
        ∀ f ∈ feeds, ∃ r, ((Warehouse.accepted batches).filter fun s ↦
          s.key.observed = r.key.observed).getLast? = some r ∧ f = r.kept.feed c) := by
  rw [Warehouse.ofBatches, Warehouse.foldl_tryIngest, Warehouse.venueRows_foldl_write] at h
  have hperm := perm_configuredFeeds h
  generalize Warehouse.accepted batches = rows at hperm ⊢
  have hlast : ∀ f ∈ feeds, ∃ r, (rows.filter fun s ↦ s.key.upper = r.key.upper).getLast? = some r ∧
      f = r.kept.feed c := by
    intro f hf
    obtain ⟨s, hs, rfl⟩ := List.mem_map.1 (hperm.mem_iff.1 hf)
    obtain ⟨r, hr, rfl⟩ := mem_lastWrites_iff_exists.1 (List.mem_of_mem_filter hs)
    exact ⟨r, hr, rfl⟩
  have honce : (feeds.map Feed.observed).Nodup ↔ ∀ r ∈ rows, ∀ s ∈ rows,
      c.providerNames.contains r.venue = true → r.key.observed = s.key.observed →
        r.key.upper = s.key.upper :=
    (hperm.map _).nodup_iff.trans nodup_observed_iff
  refine ⟨hlast, honce, fun htrimmed ↦ ⟨honce.2 fun r hr s hs _ ↦ ?_, fun f hf ↦ ?_⟩⟩
  · exact ((htrimmed r hr).observed_eq_iff (htrimmed s hs)).1
  · obtain ⟨r, hr, rfl⟩ := hlast f hf
    refine ⟨r, ?_, rfl⟩
    have hmem : r ∈ rows := List.mem_of_mem_filter (List.mem_of_getLast? hr)
    rw [← hr]
    refine congrArg List.getLast? (List.filter_congr fun s hs ↦ decide_eq_decide.2 ?_)
    exact (htrimmed s hs).observed_eq_iff (htrimmed r hmem)

/-- A row of one venue, with a symbol and a price. -/
def pricedRow (base : String) (price : Float) : VenueRow :=
  { smallRow base "USD" 1 0 with
    key := ⟨"kraken", "BTC-USD", base, "USD"⟩
    referencePrice := price }

/-- A row, a batch that is refused, and the row again with another price and its symbol in
capitals. -/
def repricedBatches : List (List VenueRow) :=
  [[pricedRow "btc" 1.0], Warehouse.faulty, [pricedRow "BTC" 3.0]]

/-- The accepted rows are of one pair, and the last price counts. -/
theorem feeds_observed_once_iff_repriced :
    ∃ feeds, queryFeeds .small (Warehouse.ofBatches repricedBatches).venueRows = .ok feeds ∧
      (∀ r ∈ Warehouse.accepted repricedBatches, r.key.Trimmed) ∧
      (feeds.map Feed.observed).Nodup ∧
      feeds.map (·.referencePrice.toBits) = [Float.toBits 3.0] := by
  have hprices : (queryFeeds .small (Warehouse.ofBatches repricedBatches).venueRows).map
      (fun feeds ↦ feeds.map (·.referencePrice.toBits)) = .ok [Float.toBits 3.0] := by
    decide +kernel
  obtain ⟨feeds, hfeeds, hbits⟩ := map_eq_ok.1 hprices
  have haccepted : Warehouse.accepted repricedBatches =
      [pricedRow "btc" 1.0, pricedRow "BTC" 3.0] :=
    rfl
  have htrimmed : ∀ r ∈ Warehouse.accepted repricedBatches, r.key.Trimmed := by
    rw [haccepted]
    refine List.forall_mem_cons.2 ⟨⟨?_, ?_⟩, List.forall_mem_singleton.2 ⟨?_, ?_⟩⟩
    all_goals decide
  obtain ⟨-, -, hlatest⟩ := feeds_observed_once_iff repricedBatches hfeeds
  exact ⟨feeds, hfeeds, htrimmed, (hlatest htrimmed).1, hbits⟩

/-- A row that is taken in again with a blank after its symbol does not replace the former one: the
batches are accepted, and the feed of the stale price stands before that of the latest one. -/
theorem exists_stale_feed :
    ∃ (batches : List (List VenueRow)) (w : Warehouse) (feeds : List Feed),
      batches.foldlM Warehouse.ingest .empty = .ok w ∧
      queryFeeds .small w.venueRows = .ok feeds ∧ ¬(feeds.map Feed.observed).Nodup ∧
      batches.map (·.map (·.referencePrice.toBits)) = [[Float.toBits 1.0], [Float.toBits 3.0]] ∧
      feeds.map (·.referencePrice.toBits) = [Float.toBits 1.0, Float.toBits 3.0] := by
  have hbatches : [[pricedRow "BTC" 1.0], [pricedRow "BTC " 3.0]].foldlM Warehouse.ingest .empty =
      .ok ([pricedRow "BTC" 1.0, pricedRow "BTC " 3.0].foldl Warehouse.write .empty) := by
    refine Warehouse.foldlM_ingest_of_valid ?_ _
    refine List.forall_mem_cons.2 ⟨?_, List.forall_mem_singleton.2 ?_⟩
    all_goals decide
  have hrun : (queryFeeds .small
      ([pricedRow "BTC" 1.0, pricedRow "BTC " 3.0].foldl Warehouse.write .empty).venueRows).map
        (fun feeds ↦ feeds.map fun f ↦ (f.observed, f.referencePrice.toBits)) =
      .ok [(("kraken", "BTC-USD", ⟨"BTC", "USD"⟩), Float.toBits 1.0),
        (("kraken", "BTC-USD", ⟨"BTC", "USD"⟩), Float.toBits 3.0)] := by
    decide +kernel
  obtain ⟨feeds, hfeeds, hshown⟩ := map_eq_ok.1 hrun
  have hobserved := congrArg (List.map Prod.fst) hshown
  have hbits := congrArg (List.map Prod.snd) hshown
  rw [List.map_map] at hobserved hbits
  refine ⟨_, _, feeds, hbatches, hfeeds, fun hnodup ↦ ?_, rfl, hbits⟩
  rw [show feeds.map Feed.observed = _ from hobserved] at hnodup
  exact absurd hnodup (by decide)

end OracleMarkets
