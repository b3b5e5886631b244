import OracleMarkets.CoreMetadata
import OracleMarkets.Stage.Identity
import OracleMarkets.Stage.Restate

/-!
# From feeds to markets

The feeds of one ticker make one market.  Its first feed opens it and tells its pair, its base and
whether it is in use; every feed adds its provider, and the feed that asks for most providers
decides how many the market asks for.  The price of a market is the mean over its feeds; its
liquidity is the sum over all feeds of the same pair of assets, whatever their ticker.
-/

namespace OracleMarkets

/-- The decimals with which a price has nine significant digits, between 1 and 36.  A price that is
not positive or not finite has one decimal. -/
def deriveDecimals (price : Float) : UInt64 :=
  if price.isFinite ∧ 0.0 < price then max 1 (min 36 (9.0 - price.log10).ceil.toUInt64) else 1

/-- The depth of all feeds of each pair of assets. -/
def liquidityByIdentity (c : Config) (feeds : List Feed) : SortedMap String Float :=
  (SortedMap.groupBy (identityKey c) feeds).mapValues fun _ group ↦
    group.foldl (fun sum f ↦ sum + f.liquidity.total) 0.0

/-- The market that a feed opens, at the given mean prices and depths. -/
def openMarket (c : Config) (averages liquidity : SortedMap String Float) (f : Feed) : Market :=
  let price := averages.getD f.tickerText 0.0
  let decimals := deriveDecimals price
  let metadata := CoreMetadata.ofPrice price decimals (liquidity.getD (identityKey c f) 0.0)
    f.cmc.baseId
  ⟨{ f.ticker with decimals := decimals, metadata := metadata.text }, [f.provider]⟩

def Market.addFeed (m : Market) (f : Feed) : Market where
  ticker :=
    { m.ticker with minProviderCount := max m.ticker.minProviderCount f.ticker.minProviderCount }
  providers := m.providers ++ [f.provider]

/-- The market of each ticker, with its providers in the order of their names. -/
def aggregate (c : Config) (feeds : List Feed) : MarketMap :=
  let opened := openMarket c (averagePrices feeds) (liquidityByIdentity c feeds)
  let markets : MarketMap := feeds.foldl (fun m f ↦ m.alter f.tickerText fun market ↦
    (market.map fun market ↦ market.addFeed f).getD (opened f)) ∅
  markets.mapValues fun _ market ↦ market.sortProviders

end OracleMarkets
