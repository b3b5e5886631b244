import OracleMarkets.Aggregate
import OracleMarkets.Config.Validate
import OracleMarkets.RowStore
import OracleMarkets.Stage.Standard

/-!
# Generating market maps

Rows of a store become feeds, feeds run through the chain over feeds, what is left is aggregated,
and the market map runs through the chain over markets.  The result has to be a valid market map.
-/

namespace OracleMarkets

/-! ## Feeds of a store -/

/-- The feed of a row.  A row whose symbols make no valid pair is refused. -/
def feedOfRow (c : Config) (r : VenueRow) : Except PipelineError Feed := do
  let pair := CurrencyPair.ofSymbols r.key.base r.key.quote
  liftValidation pair.validate
  return {
    ticker := .ofPair pair (c.minProviderCountFor r.venue)
    provider := { ProviderConfig.ofVenue r.venue r.key.offChainTicker with metadata := r.metadata }
    quoteVolume := r.quoteVolume
    usdVolume := r.usdVolume
    referencePrice := r.referencePrice
    liquidity := ⟨r.negativeDepth, r.positiveDepth⟩
    cmc := ⟨r.baseId, r.quoteId, r.baseRank, r.quoteRank⟩ }

/-- The feeds of all venues of a configuration. -/
def queryFeeds (c : Config) (source : RowSource) : Except PipelineError (List Feed) :=
  (source c.providerNames).mapM (feedOfRow c)

/-! ## Generation -/

/-- A market map, and what was left out on the way to it. -/
structure Generated where
  marketMap : MarketMap
  removals : RemovalLog
  /-- The markets that were left out, or that lost a provider. -/
  exclusions : ExclusionLog

/-- A configuration that is consistent, and the chains to run under it. -/
structure Generator where
  config : Config
  config_valid : config.validate = .ok ()
  feedChain : FeedStage := standardFeedChain
  marketChain : MarketStage := standardMarketChain

namespace Generator

/-- The standard generator of a configuration, which has to be consistent. -/
def ofConfig (c : Config) : Except PipelineError Generator :=
  match h : c.validate with
  | .error e => .error (.validation e)
  | .ok () => .ok { config := c, config_valid := h }

/-- The market map of a list of feeds. -/
def generateFromFeeds (g : Generator) (feeds : List Feed) : Except PipelineError Generated := do
  let (feeds, removals) ← g.feedChain g.config (Feed.sortCanonical feeds)
  let (marketMap, exclusions) ← g.marketChain g.config (aggregate g.config feeds)
  liftValidation marketMap.validate
  return ⟨marketMap, removals, exclusions⟩

def generate (g : Generator) (source : RowSource) : Except PipelineError Generated := do
  let feeds ← queryFeeds g.config source
  g.generateFromFeeds feeds

end Generator

end OracleMarkets
