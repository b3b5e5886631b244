import OracleMarkets.Market.Basic

/-!
# Feeds

A feed is what one venue reports about one pair: its price, its volume of a day, how deep its order
book is, and which assets the symbols stand for.
-/

namespace OracleMarkets

/-- The assets behind the symbols of a pair, by their ids and ranks at an aggregator.  The id and
the rank 0 stand for none. -/
structure CmcInfo where
  baseId : UInt64
  quoteId : UInt64
  baseRank : UInt64
  quoteRank : UInt64
deriving DecidableEq, Repr

/-- How much, in dollars, moves the price by two percent down or up. -/
structure LiquidityInfo where
  negativeDepth : Float
  positiveDepth : Float

/-- What a venue reports about a pair. -/
structure Feed where
  ticker : Ticker
  provider : ProviderConfig
  /-- The volume of a day in the quote. -/
  quoteVolume : Float
  usdVolume : Float
  referencePrice : Float
  liquidity : LiquidityInfo
  cmc : CmcInfo

namespace CmcInfo

def unknown : CmcInfo := ⟨0, 0, 0, 0⟩

/-- The assets of the pair seen from the other side. -/
def inverted (c : CmcInfo) : CmcInfo := ⟨c.quoteId, c.baseId, c.quoteRank, c.baseRank⟩

def encode (c : CmcInfo) : Value :=
  .object [("base_id", .count c.baseId), ("quote_id", .count c.quoteId),
    ("base_rank", .count c.baseRank), ("quote_rank", .count c.quoteRank)]

def decode? (v : Value) : Option CmcInfo := do
  let fs ← v.fields? ["base_id", "quote_id", "base_rank", "quote_rank"]
  let baseId ← fs.required "base_id" Value.count?
  let quoteId ← fs.required "quote_id" Value.count?
  let baseRank ← fs.required "base_rank" Value.count?
  let quoteRank ← fs.required "quote_rank" Value.count?
  return ⟨baseId, quoteId, baseRank, quoteRank⟩

end CmcInfo

namespace LiquidityInfo

def total (l : LiquidityInfo) : Float := l.negativeDepth + l.positiveDepth

def isSufficient (l : LiquidityInfo) (threshold : Float) : Bool :=
  decide (threshold ≤ l.negativeDepth) && decide (threshold ≤ l.positiveDepth)

def encode (l : LiquidityInfo) : Value :=
  .object [("negative_depth_two", .amount l.negativeDepth),
    ("positive_depth_two", .amount l.positiveDepth)]

def decode? (v : Value) : Option LiquidityInfo := do
  let fs ← v.fields? ["negative_depth_two", "positive_depth_two"]
  let negativeDepth ← fs.required "negative_depth_two" Value.amount?
  let positiveDepth ← fs.required "positive_depth_two" Value.amount?
  return ⟨negativeDepth, positiveDepth⟩

end LiquidityInfo

namespace Feed

def ofPrice (pair : CurrencyPair) (venue offChainTicker : String)
    (referencePrice : Float) : Feed where
  ticker := .ofPair pair 1
  provider := .ofVenue venue offChainTicker
  quoteVolume := 0.0
  usdVolume := 0.0
  referencePrice := referencePrice
  liquidity := ⟨0.0, 0.0⟩
  cmc := .unknown

def pair (f : Feed) : CurrencyPair := f.ticker.pair

def tickerText (f : Feed) : String := f.pair.text

def venue (f : Feed) : String := f.provider.name

/-- The feed seen from the other side.  Its price becomes the reciprocal, except that a price of
zero stays. -/
def inverted (f : Feed) : Feed where
  ticker := { f.ticker with pair := f.ticker.pair.inverted }
  provider := { f.provider with invert := !f.provider.invert }
  quoteVolume := f.quoteVolume
  usdVolume := f.usdVolume
  referencePrice := if f.referencePrice == 0.0 then f.referencePrice else 1.0 / f.referencePrice
  liquidity := f.liquidity
  cmc := f.cmc.inverted

def fieldNames : List String :=
  ["ticker", "provider_config", "daily_quote_volume", "daily_usd_volume", "reference_price",
    "liquidity_info", "cmc_info"]

/-- The feed as an object; a number that is not finite is absent. -/
def encode (f : Feed) : Value :=
  .object [("ticker", f.ticker.encode), ("provider_config", f.provider.encode),
    ("daily_quote_volume", .amount f.quoteVolume), ("daily_usd_volume", .amount f.usdVolume),
    ("reference_price", .amount f.referencePrice), ("liquidity_info", f.liquidity.encode),
    ("cmc_info", f.cmc.encode)]

def decode? (v : Value) : Option Feed := do
  let fs ← v.fields? fieldNames
  let ticker ← fs.required "ticker" Ticker.decode?
  let provider ← fs.required "provider_config" ProviderConfig.decode?
  let quoteVolume ← fs.required "daily_quote_volume" Value.amount?
  let usdVolume ← fs.required "daily_usd_volume" Value.amount?
  let referencePrice ← fs.required "reference_price" Value.amount?
  let liquidity ← fs.required "liquidity_info" LiquidityInfo.decode?
  let cmc ← fs.required "cmc_info" CmcInfo.decode?
  return ⟨ticker, provider, quoteVolume, usdVolume, referencePrice, liquidity, cmc⟩

end Feed

end OracleMarkets
