import OracleMarkets.Stage.Floors
import OracleMarkets.Stage.Identity
import OracleMarkets.Stage.Markets
import OracleMarkets.Stage.Rekey
import OracleMarkets.Stage.Restate
import OracleMarkets.Stage.Select

/-!
# The standard chains

The stages of both chains in the order in which they run, under their names.
-/

namespace OracleMarkets

def feedStages : List (String × FeedStage) :=
  [("invert_or_drop", invertOrDrop),
    ("prune_by_liquidity", pruneByLiquidity),
    ("prune_by_quote_volume", pruneByQuoteVolume),
    ("prune_by_provider_liquidity", pruneByProviderLiquidity),
    ("prune_by_provider_usd_volume", pruneByProviderUsdVolume),
    ("resolve_naming_aliases", resolveAliases),
    ("normalize_by", normalize),
    ("drop_feeds_without_aggregator_ids", dropFeedsWithoutIds),
    ("resolve_cmc_conflicts_for_market", resolveCmcConflicts),
    ("resolve_conflicts_for_provider", resolveProviderConflicts),
    ("top_feeds_for_provider", topFeeds)]

def marketStages : List (String × MarketStage) :=
  [("prune_markets", pruneMarkets),
    ("exclude_disabled_providers", excludeDisabledProviders),
    ("enable_markets", enableMarkets),
    ("process_defi_markets", rekeyDefiMarkets),
    ("prune_insufficiently_provided_markets", pruneInsufficientMarkets),
    ("override_min_provider_count", overrideMinProviderCount),
    ("override_markets", overrideMarkets)]

def standardFeedChain : FeedStage := Stage.chain (feedStages.map (·.2))

def standardMarketChain : MarketStage := Stage.chain (marketStages.map (·.2))

end OracleMarkets
