import OracleMarkets.Config.Basic

/-!
# Configurations as documents

How a configuration and its settings are read from and written as values.  Reading does not check
that a configuration is consistent.
-/

namespace OracleMarkets

namespace ProviderSettings

def fieldNames : List String :=
  ["is_supplemental", "requires_aggregate_ids", "filter_top_amount", "ignore_liquidity",
    "ignore_volume", "is_defi", "min_usd_volume", "min_provider_liquidity"]

def encode (s : ProviderSettings) : Value :=
  .object [("is_supplemental", .bool s.isSupplemental),
    ("requires_aggregate_ids", .bool s.requiresAggregateIds),
    ("filter_top_amount", .count s.filterTopAmount), ("ignore_liquidity", .bool s.ignoreLiquidity),
    ("ignore_volume", .bool s.ignoreVolume), ("is_defi", .bool s.isDefi),
    ("min_usd_volume", .amount s.minUsdVolume),
    ("min_provider_liquidity", .amount s.minProviderLiquidity)]

def shape : Shape :=
  .record [("is_supplemental", .flag), ("requires_aggregate_ids", .flag),
    ("filter_top_amount", .count), ("ignore_liquidity", .flag), ("ignore_volume", .flag),
    ("is_defi", .flag), ("min_usd_volume", .amount), ("min_provider_liquidity", .amount)] false

def decode? (v : Value) : Option ProviderSettings := do
  let fs ← v.fields? fieldNames
  let isSupplemental ← fs.withDefault "is_supplemental" false Value.bool?
  let requiresAggregateIds ← fs.withDefault "requires_aggregate_ids" false Value.bool?
  let filterTopAmount ← fs.withDefault "filter_top_amount" 0 Value.count?
  let ignoreLiquidity ← fs.withDefault "ignore_liquidity" false Value.bool?
  let ignoreVolume ← fs.withDefault "ignore_volume" false Value.bool?
  let isDefi ← fs.withDefault "is_defi" false Value.bool?
  let minUsdVolume ← fs.withDefault "min_usd_volume" 0.0 Value.amount?
  let minProviderLiquidity ← fs.withDefault "min_provider_liquidity" 0.0 Value.amount?
  return ⟨isSupplemental, requiresAggregateIds, filterTopAmount, ignoreLiquidity, ignoreVolume,
    isDefi, minUsdVolume, minProviderLiquidity⟩

end ProviderSettings

namespace QuoteSettings

def fieldNames : List String :=
  ["min_provider_volume", "min_provider_liquidity", "normalize_by_pair"]

/-- The settings as an object; a pair to normalize by is left out if there is none. -/
def encode (s : QuoteSettings) : Value :=
  .object ([("min_provider_volume", .amount s.minProviderVolume),
    ("min_provider_liquidity", .amount s.minProviderLiquidity)] ++
      (s.normalizeBy.map fun pair ↦ ("normalize_by_pair", pair.encode)).toList)

def shape : Shape :=
  .record [("min_provider_volume", .amount), ("min_provider_liquidity", .amount),
    ("normalize_by_pair", .optional CurrencyPair.shape)] false

def decode? (v : Value) : Option QuoteSettings := do
  let fs ← v.fields? fieldNames
  let minProviderVolume ← fs.withDefault "min_provider_volume" 0.0 Value.amount?
  let minProviderLiquidity ← fs.withDefault "min_provider_liquidity" 0.0 Value.amount?
  let normalizeBy ← fs.withDefault "normalize_by_pair" none (Value.option? CurrencyPair.decode?)
  return ⟨minProviderVolume, minProviderLiquidity, normalizeBy⟩

end QuoteSettings

namespace Config

def fieldNames : List String :=
  ["providers", "quotes", "min_cex_provider_count", "min_dex_provider_count",
    "min_provider_count_override", "exclude_currency_pairs", "allowed_currency_pairs",
    "disable_providers", "market_map_override", "enable_all", "aggregate_id_aliases"]

def encodePairs (pairs : SortedSet CurrencyPair) : Value :=
  .list (pairs.keys.map CurrencyPair.encode)

def decodePairs? (v : Value) : Option (SortedSet CurrencyPair) :=
  (v.list? CurrencyPair.decode?).map SortedSet.ofList

def encode (c : Config) : Value :=
  .object [("providers", .object (c.providers.toList.map fun e ↦ (e.1, e.2.encode))),
    ("quotes", .object (c.quotes.toList.map fun e ↦ (e.1, e.2.encode))),
    ("min_cex_provider_count", .count c.minCexProviderCount),
    ("min_dex_provider_count", .count c.minDexProviderCount),
    ("min_provider_count_override", .count c.minProviderCountOverride),
    ("exclude_currency_pairs", encodePairs c.excludedPairs),
    ("allowed_currency_pairs", encodePairs c.allowedPairs),
    ("disable_providers",
      .object (c.disabledProviders.toList.map fun e ↦ (e.1, .list (e.2.map .text)))),
    ("market_map_override", c.overrides.encode),
    ("enable_all", .bool c.enableAll),
    ("aggregate_id_aliases",
      .object (c.aliases.toList.map fun e ↦
        (String.ofList (Decimal.digits e.1.toNat), .count e.2)))]

def shape : Shape :=
  .record [("providers", .map ProviderSettings.shape), ("quotes", .map QuoteSettings.shape),
    ("min_cex_provider_count", .count), ("min_dex_provider_count", .count),
    ("min_provider_count_override", .count), ("exclude_currency_pairs", .list CurrencyPair.shape),
    ("allowed_currency_pairs", .list CurrencyPair.shape), ("disable_providers", .map (.list .text)),
    ("market_map_override", .map Market.shape), ("enable_all", .flag),
    ("aggregate_id_aliases", .countMap .count)] false

/-- Reads a configuration.  A part that is missing is the standard one. -/
def decode? (v : Value) : Option Config := do
  let fs ← v.fields? fieldNames
  let d := standard
  let providers ← fs.withDefault "providers" d.providers (Value.map? ProviderSettings.decode?)
  let quotes ← fs.withDefault "quotes" d.quotes (Value.map? QuoteSettings.decode?)
  let minCexProviderCount ← fs.withDefault "min_cex_provider_count" d.minCexProviderCount
    Value.count?
  let minDexProviderCount ← fs.withDefault "min_dex_provider_count" d.minDexProviderCount
    Value.count?
  let minProviderCountOverride ←
    fs.withDefault "min_provider_count_override" d.minProviderCountOverride Value.count?
  let excludedPairs ← fs.withDefault "exclude_currency_pairs" d.excludedPairs decodePairs?
  let allowedPairs ← fs.withDefault "allowed_currency_pairs" d.allowedPairs decodePairs?
  let disabledProviders ←
    fs.withDefault "disable_providers" d.disabledProviders (Value.map? (Value.list? Value.text?))
  let overrides ← fs.withDefault "market_map_override" d.overrides MarketMap.decode?
  let enableAll ← fs.withDefault "enable_all" d.enableAll Value.bool?
  let aliases ← fs.withDefault "aggregate_id_aliases" d.aliases (Value.countMap? Value.count?)
  return ⟨providers, quotes, minCexProviderCount, minDexProviderCount, minProviderCountOverride,
    excludedPairs, allowedPairs, disabledProviders, overrides, enableAll, aliases⟩

end Config

end OracleMarkets
