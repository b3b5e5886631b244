import Mathlib.Data.Nat.Digits.Defs
import Mathlib.Data.String.Basic
import OracleMarkets.Proofs.Config
import OracleMarkets.Proofs.Document
import OracleMarkets.Proofs.Grouping
import OracleMarkets.Proofs.Stage.FeedChain
import OracleMarkets.Proofs.Stage.Markets

/-!
# Metadata of generated tickers are readable

The metadata text of a ticker is read back as the metadata that it is written from, whatever their
numbers.  Metadata that are made of a price hold three numbers of 64 bits, so their text is short,
and no market map is refused for a ticker whose metadata are made of a price.
-/

namespace OracleMarkets

/-! ## Lengths of texts -/

theorem utf8ByteSize_ofList_le (s : List Char) : (String.ofList s).utf8ByteSize ≤ 4 * s.length := by
  rw [String.utf8ByteSize_ofList]
  induction s with
  | nil => exact Nat.zero_le _
  | cons c s ih =>
    have hsize := c.utf8Size_le_four
    rw [String.utf8Len, List.length_cons]
    omega

/-- A number of 64 bits has at most twenty digits. -/
theorem length_digits_le (n : UInt64) : (Decimal.digits n.toNat).length ≤ 20 :=
  Nat.toDigits_length 10 n.toNat 20 (by decide) (Nat.lt_trans n.toNat_lt (by decide))

namespace Json

theorem chars_count (n : UInt64) : chars (.count n) = Decimal.digits n.toNat := by
  have hnat : ¬(n.toNat : Int) < 0 := by omega
  rw [Value.count, Value.int, chars, number, integer, if_neg hnat, Int.natAbs_natCast]

/-- A list takes its brackets, and for each item its text and a comma. -/
theorem length_chars_list_le (items : List Value) :
    (chars (.list items)).length ≤ (items.map fun v ↦ (chars v).length + 1).sum + 2 := by
  have hrest : ∀ items, (charsRest items).length =
      (items.map fun v ↦ (chars v).length + 1).sum := by
    intro items
    induction items with
    | nil => rfl
    | cons v items ih =>
      rw [charsRest, List.length_append, List.length_cons, ih, List.map_cons, List.sum_cons]
  cases items with
  | nil => exact Nat.le_refl 2
  | cons v items =>
    rw [chars, List.length_append, List.length_append, List.length_cons, List.length_singleton,
      hrest, List.map_cons, List.sum_cons]
    omega

/-- A record takes its braces, and for each field its name, a colon, its value and a comma. -/
theorem length_chars_object_le (fields : List (String × Value)) :
    (chars (.object fields)).length ≤
      (fields.map fun f ↦ (quote f.1).length + (chars f.2).length + 2).sum + 2 := by
  have hrest : ∀ fields : List (String × Value),
      (fieldsRest (fields.map fun f ↦ (.plain f.1, f.2))).length =
        (fields.map fun f ↦ (quote f.1).length + (chars f.2).length + 2).sum := by
    intro fields
    induction fields with
    | nil => rfl
    | cons f fields ih =>
      simp only [List.map_cons, fieldsRest, List.sum_cons, List.length_append, List.length_cons, ih,
        Key.text]
      omega
  cases fields with
  | nil => exact Nat.le_refl 2
  | cons f fields =>
    simp only [Value.object, List.map_cons, chars, List.sum_cons, List.length_append,
      List.length_cons, List.length_nil, hrest, Key.text]
    omega

end Json

/-! ## Reading back -/

open Fields

namespace AggregateId

theorem decode?_encode (σ : Rearrangement) (a : AggregateId) : decode? (σ a.encode) = some a := by
  refine σ.bind_fields? ["venue", "ID"] rfl (by decide) (by decide) fun fs ⟨h₁, h₂⟩ _ ↦ ?_
  rw [bind_required h₁ (σ.text?_value _), bind_required h₂ (σ.text?_value _)]
  rfl

theorem writable_encode {d : Nat} (a : AggregateId) : a.encode.Writable (d + 1) := by
  refine Value.writable_object ?_
  simp only [List.forall_mem_cons]
  exact ⟨.text _, .text _, List.forall_mem_nil _⟩

/-- Only the id 0 stands for no asset. -/
theorem ofBase_eq_nil_iff {baseId : UInt64} : ofBase baseId = [] ↔ baseId = 0 := by
  rw [ofBase]
  split
  · next h => exact iff_of_true rfl h
  · next h => exact iff_of_false nofun h

/-- A base with an id has one id, whose text is the number. -/
theorem exists_ofBase_eq {baseId : UInt64} (h : baseId ≠ 0) :
    ∃ id, ofBase baseId = [⟨"coinmarketcap", id⟩] ∧
      Decimal.canonical? id.toList = some baseId.toNat := by
  refine ⟨String.ofList (Decimal.digits baseId.toNat), if_neg h, ?_⟩
  rw [String.toList_ofList, Decimal.canonical?, Json.ofDigits_digits, if_pos rfl]

/-- The text of the ids of a base is short. -/
theorem length_chars_ofBase_le (baseId : UInt64) :
    (Json.chars (.list ((ofBase baseId).map encode))).length ≤ 160 := by
  refine (Json.length_chars_list_le _).trans ?_
  rw [ofBase]
  split
  · exact Nat.le_add_left 2 158
  · have hdigits := length_digits_le baseId
    have hid := (Json.length_quote (String.ofList (Decimal.digits baseId.toNat))).2
    rw [String.toList_ofList] at hid
    have hname : (Json.quote "venue").length = 7 := by decide
    have hvenue : (Json.quote "coinmarketcap").length = 15 := by decide
    have hkey : (Json.quote "ID").length = 4 := by decide
    have hobject := Json.length_chars_object_le [("venue", .text "coinmarketcap"),
      ("ID", .text (String.ofList (Decimal.digits baseId.toNat)))]
    simp only [List.map_cons, List.map_nil, List.sum_cons, List.sum_nil, Json.chars, encode,
      hname, hvenue, hkey] at hobject ⊢
    omega

end AggregateId

namespace CoreMetadata

theorem decode?_encode (σ : Rearrangement) (m : CoreMetadata) : decode? (σ m.encode) = some m := by
  have hids : Value.list? AggregateId.decode? (σ (.list (m.aggregateIds.map AggregateId.encode))) =
      some m.aggregateIds :=
    σ.list?_value fun a _ ↦ a.decode?_encode σ
  refine σ.bind_fields? ["reference_price", "liquidity", "aggregate_ids"] rfl
    (by decide) (by decide) fun fs ⟨h₁, h₂, h₃⟩ _ ↦ ?_
  rw [bind_required h₁ (σ.count?_value _), bind_required h₂ (σ.count?_value _),
    bind_required h₃ hids]
  rfl

theorem writable_encode {d : Nat} (m : CoreMetadata) : m.encode.Writable (d + 3) := by
  refine Value.writable_object ?_
  simp only [List.forall_mem_cons]
  refine ⟨Value.writable_count _, Value.writable_count _, .list ?_, List.forall_mem_nil _⟩
  intro v hv
  obtain ⟨a, -, rfl⟩ := List.mem_map.1 hv
  exact a.writable_encode

/-- The text of metadata is read back as the metadata. -/
theorem decode?_read?_text (m : CoreMetadata) : (Json.read? m.text).bind decode? = some m := by
  rw [text, Json.read?_compact m.writable_encode, Option.bind_some]
  exact decode?_encode .reread m

/-- Metadata that are made of a price have a short text. -/
theorem utf8ByteSize_text_lt (price : Float) (decimals : UInt64) (depth : Float) (baseId : UInt64) :
    (ofPrice price decimals depth baseId).text.utf8ByteSize < maxMetadataLength := by
  have hprice := length_digits_le (ofPrice price decimals depth baseId).referencePrice
  have hdepth := length_digits_le (ofPrice price decimals depth baseId).liquidity
  have hids := AggregateId.length_chars_ofBase_le baseId
  have hfirst : (Json.quote "reference_price").length = 17 := by decide
  have hsecond : (Json.quote "liquidity").length = 11 := by decide
  have hthird : (Json.quote "aggregate_ids").length = 15 := by decide
  have hlength : (Json.chars (ofPrice price decimals depth baseId).encode).length ≤ 251 := by
    refine (Json.length_chars_object_le _).trans ?_
    simp only [List.map_cons, List.map_nil, List.sum_cons, List.sum_nil, Json.chars_count, hfirst,
      hsecond, hthird]
    rw [show (ofPrice price decimals depth baseId).aggregateIds =
      AggregateId.ofBase baseId from rfl]
    omega
  calc (ofPrice price decimals depth baseId).text.utf8ByteSize
      ≤ 4 * (Json.chars (ofPrice price decimals depth baseId).encode).length :=
        utf8ByteSize_ofList_le _
    _ ≤ 4 * 251 := Nat.mul_le_mul_left 4 hlength
    _ < maxMetadataLength := by decide

end CoreMetadata

/-! ## Tickers of generated markets -/

variable {c : Config}

/-- The metadata of every ticker are made of a price. -/
def MarketMap.TellsPrices (m : MarketMap) : Prop :=
  m.Forall fun _ market ↦ ∃ price decimals depth baseId,
    market.ticker.metadata = (CoreMetadata.ofPrice price decimals depth baseId).text

/-- Every market of a list of feeds is that of the feeds of one ticker. -/
theorem exists_isGroupOf_of_get?_aggregate {feeds : List Feed} {ticker : String} {market : Market}
    (h : (aggregate c feeds).get? ticker = some market) :
    ∃ first ∈ feeds, market.IsGroupOf c feeds ticker first := by
  rw [get?_aggregate_eq_ofGroup] at h
  cases hgroup : feedsOf feeds ticker with
  | nil =>
    rw [hgroup] at h
    cases h
  | cons first rest =>
    rw [hgroup] at h
    cases h
    have hfirst := mem_feedsOf.1 (hgroup ▸ List.mem_cons_self)
    exact ⟨first, hfirst.1, Market.isGroupOf_ofGroup hgroup⟩

/-- The metadata of every market that is aggregated tell a price. -/
theorem tellsPrices_aggregate (c : Config) (feeds : List Feed) :
    (aggregate c feeds).TellsPrices := by
  intro ticker market h
  obtain ⟨first, -, hgroup⟩ := exists_isGroupOf_of_get?_aggregate h
  exact ⟨_, _, _, _, hgroup.metadata_eq⟩

/-- The chain over markets leaves the metadata of tickers as they are. -/
theorem Emitted.exists_metadata_eq {m₀ : MarketMap} {key : String} {market : Market}
    (h : Emitted c m₀ key market) :
    ∃ key₀ market₀, m₀.get? key₀ = some market₀ ∧
      market.ticker.metadata = market₀.ticker.metadata := by
  obtain @⟨_, key₀, _, left, @⟨market₀, hfound, -⟩, -, hrekeyed, -⟩ := h
  refine ⟨key₀, market₀, hfound, ?_⟩
  have hticker := congrArg Ticker.metadata hrekeyed.ticker_eq
  exact hticker

/-- No market that is generated has metadata that are too long. -/
theorem metadata_of_standardMarketChain (hc : c.validate = .ok ()) {m₀ m : MarketMap}
    (hm₀ : m₀.TellsPrices) {exclusions : ExclusionLog}
    (hrun : standardMarketChain c m₀ = .ok (m, exclusions)) :
    m.Forall fun _ market ↦ market.ticker.metadata.utf8ByteSize ≤ maxMetadataLength := by
  intro key market hmarket
  rcases emitted_or_mem_of_standardMarketChain hc hrun key market hmarket with h | ⟨h, -⟩
  · obtain ⟨key₀, market₀, hfound, hmetadata⟩ := h.exists_metadata_eq
    obtain ⟨price, decimals, depth, baseId, htext⟩ := hm₀ key₀ market₀ hfound
    rw [hmetadata, htext]
    exact (CoreMetadata.utf8ByteSize_text_lt price decimals depth baseId).le
  · -- A market that the configuration forces has passed the same check with the configuration.
    obtain ⟨⟨key', _⟩, hmem, rfl⟩ := List.mem_map.1 h
    have hvalid := (MarketMap.validate_eq_ok_iff.1 (Config.validate_overrides hc)).1
    exact (hvalid key' _ (SortedMap.get?_eq_some_iff.2 hmem)).metadata

/-- The metadata of no ticker are too long, so if the map is refused for metadata that are too long,
they are those of a provider. -/
structure MarketMap.HasShortTickers (m : MarketMap) : Prop where
  metadata : m.Forall fun _ market ↦ market.ticker.metadata.utf8ByteSize ≤ maxMetadataLength
  /-- Metadata that are refused as too long are those of a provider of the market that is told. -/
  exists_provider : ∀ ticker size limit, m.validate = .error (.metadataTooLong ticker size limit) →
    ∃ key market, m.get? key = some market ∧ market.tickerText = ticker ∧
      ∃ p ∈ market.providers, p.metadata.utf8ByteSize = size ∧ maxMetadataLength < size

theorem MarketMap.hasShortTickers {m : MarketMap}
    (hm : m.Forall fun _ market ↦ market.ticker.metadata.utf8ByteSize ≤ maxMetadataLength) :
    m.HasShortTickers := by
  refine ⟨hm, fun ticker size limit h ↦ ?_⟩
  cases fault_of_validate h with
  | @market key market _ hmarket hfault =>
    cases hfault with
    | metadata hlong => exact absurd hlong (Nat.not_lt.2 (hm key market hmarket))
    | @provider p _ hp hfault =>
      cases hfault with
      | metadata hlong => exact ⟨key, market, hmarket, rfl, p, hp, rfl, hlong⟩

/-- The text of metadata that are made of a price is read back as the metadata and is short,
whatever the price, the decimals and the depth.  It tells no id exactly if the id of the base is
zero, and otherwise the one id whose decimal text is that of the base.  The metadata of every market
that is made of feeds are such a text, so neither the markets of feeds nor what the chain makes of
them are refused for the metadata of a ticker. -/
theorem metadata_of_generated_tickers :
    (∀ price decimals depth baseId, let m := CoreMetadata.ofPrice price decimals depth baseId;
      (Json.read? m.text).bind CoreMetadata.decode? = some m ∧
      (m.aggregateIds = [] ↔ baseId = 0) ∧
      (baseId ≠ 0 → ∃ id, m.aggregateIds = [⟨"coinmarketcap", id⟩] ∧
        Decimal.canonical? id.toList = some baseId.toNat) ∧
      m.text.utf8ByteSize < maxMetadataLength) ∧
    (∀ c feeds ticker market, (aggregate c feeds).get? ticker = some market →
      ∃ first ∈ feeds, market.ticker.metadata = (CoreMetadata.ofPrice
        (meanPrice (feedsOf feeds ticker)) market.ticker.decimals
        (pooledDepth c feeds (first.assets c)) first.cmc.baseId).text) ∧
    (∀ c feeds, (aggregate c feeds).HasShortTickers) ∧
    ∀ c : Config, c.validate = .ok () → ∀ feeds m exclusions,
      standardMarketChain c (aggregate c feeds) = .ok (m, exclusions) → m.HasShortTickers := by
  refine ⟨?_, ?_, ?_, ?_⟩
  · intro price decimals depth baseId
    exact ⟨CoreMetadata.decode?_read?_text _, AggregateId.ofBase_eq_nil_iff,
      AggregateId.exists_ofBase_eq, CoreMetadata.utf8ByteSize_text_lt price decimals depth baseId⟩
  · intro c feeds ticker market h
    obtain ⟨first, hfirst, hgroup⟩ := exists_isGroupOf_of_get?_aggregate h
    exact ⟨first, hfirst, hgroup.metadata_eq⟩
  · intro c feeds
    refine MarketMap.hasShortTickers fun ticker market h ↦ ?_
    obtain ⟨price, decimals, depth, baseId, htext⟩ := tellsPrices_aggregate c feeds ticker market h
    rw [htext]
    exact (CoreMetadata.utf8ByteSize_text_lt price decimals depth baseId).le
  · intro c hc feeds m exclusions hrun
    exact MarketMap.hasShortTickers
      (metadata_of_standardMarketChain hc (tellsPrices_aggregate c feeds) hrun)

theorem metadata_of_generated_tickers_small :
    (let m := CoreMetadata.ofPrice (1.0 / 0.0) 9 (0.0 / 0.0) 0xffffffffffffffff;
      m.referencePrice = 0xffffffffffffffff ∧ m.liquidity = 0 ∧
      (Json.read? m.text).bind CoreMetadata.decode? = some m ∧
      ∃ id, m.aggregateIds = [⟨"coinmarketcap", id⟩] ∧
        Decimal.canonical? id.toList = some 0xffffffffffffffff) ∧
    (∃ market, (aggregate .small smallFeeds).get? "USDT/USD" = some market ∧ ∃ first ∈ smallFeeds,
      market.ticker.metadata = (CoreMetadata.ofPrice (meanPrice (feedsOf smallFeeds "USDT/USD"))
        market.ticker.decimals (pooledDepth .small smallFeeds (first.assets .small))
        first.cmc.baseId).text) ∧
    ∃ m exclusions, standardMarketChain .small (aggregate .small smallFeeds) = .ok (m, exclusions) ∧
      m.HasShortTickers := by
  obtain ⟨hread, hmetadata, -, hshort⟩ := metadata_of_generated_tickers
  obtain ⟨hback, -, hid, -⟩ := hread (1.0 / 0.0) 9 (0.0 / 0.0) 0xffffffffffffffff
  obtain ⟨⟨m, exclusions⟩, hrun⟩ :=
    exists_standardMarketChain_eq_ok Config.validate_small (aggregate .small smallFeeds)
  have hmarket : ∃ market, (aggregate .small smallFeeds).get? "USDT/USD" = some market := by
    rw [get?_aggregate_eq_ofGroup]
    exact ⟨_, rfl⟩
  obtain ⟨market, hmarket⟩ := hmarket
  refine ⟨⟨by decide +kernel, by decide +kernel, hback, hid (by decide)⟩, ⟨market, hmarket, ?_⟩,
    m, exclusions, hrun, hshort _ Config.validate_small _ _ _ hrun⟩
  exact hmetadata _ _ _ _ hmarket

end OracleMarkets
