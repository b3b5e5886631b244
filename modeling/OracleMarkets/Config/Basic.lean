import OracleMarkets.Market.Map

/-!
# Configurations

A configuration says which venues and quotes a market map is made of, which floors their feeds have
to reach, and what an operator excludes, disables or overrides.  A part that a document leaves out
is taken from `Config.standard`.
-/

namespace OracleMarkets

/-- The settings of a venue. -/
structure ProviderSettings where
  /-- Whether the venue counts for nothing towards a market's least number of providers. -/
  isSupplemental : Bool := false
  requiresAggregateIds : Bool := false
  /-- How many of the venue's best feeds are kept; all of them if zero. -/
  filterTopAmount : UInt64 := 0
  ignoreLiquidity : Bool := false
  ignoreVolume : Bool := false
  /-- Whether the venue's off-chain tickers are pairs of on-chain assets. -/
  isDefi : Bool := false
  minUsdVolume : Float := 0.0
  minProviderLiquidity : Float := 0.0

/-- The settings of a quote. -/
structure QuoteSettings where
  minProviderVolume : Float := 0.0
  minProviderLiquidity : Float := 0.0
  /-- The pair whose price turns this quote into another. -/
  normalizeBy : Option CurrencyPair := none

/-- What a market map is made of. -/
structure Config where
  providers : SortedMap String ProviderSettings
  quotes : SortedMap String QuoteSettings
  /-- The least number of providers that a feed of a centralized venue asks for. -/
  minCexProviderCount : UInt64
  minDexProviderCount : UInt64
  /-- The least number of providers of every market, unless it is zero. -/
  minProviderCountOverride : UInt64
  excludedPairs : SortedSet CurrencyPair
  /-- The only pairs that get a market, if there are any. -/
  allowedPairs : SortedSet CurrencyPair
  disabledProviders : SortedMap String (List String)
  /-- The markets that take the place of those of their ticker. -/
  overrides : MarketMap
  enableAll : Bool
  /-- The id of the asset that a wrapped asset stands for. -/
  aliases : SortedMap UInt64 UInt64

namespace Config

/-! ## Standard parts -/

def standardCex : ProviderSettings := {}

def standardDex : ProviderSettings := { requiresAggregateIds := true, isDefi := true }

def standardProviders : SortedMap String ProviderSettings :=
  .ofList
    (["binance_ws", "bitstamp_api", "bybit_ws", "coinbase_ws", "crypto_dot_com_ws", "gate_ws",
        "huobi_ws", "kraken_api", "kucoin_ws", "mexc_ws", "okx_ws"].map (·, standardCex) ++
      ["raydium_api", "uniswapv3_api-base", "uniswapv3_api-ethereum"].map (·, standardDex))

/-- The settings of a quote without floors, whose feeds are priced by `pair` if there is one. -/
def standardQuote (pair : Option CurrencyPair) : QuoteSettings := { normalizeBy := pair }

/-- The standard quotes: the dollar, and two stable coins that are priced in dollars. -/
def standardQuotes : SortedMap String QuoteSettings :=
  .ofList
    [("USD", standardQuote none), ("USDT", standardQuote (some ⟨"USDT", "USD"⟩)),
      ("USDC", standardQuote (some ⟨"USDC", "USD"⟩))]

def standardAliases : SortedMap UInt64 UInt64 := .ofList [(2396, 1027), (3717, 1), (7192, 1839)]

def standard : Config where
  providers := standardProviders
  quotes := standardQuotes
  minCexProviderCount := 3
  minDexProviderCount := 1
  minProviderCountOverride := 0
  excludedPairs := ∅
  allowedPairs := ∅
  disabledProviders := ∅
  overrides := ∅
  enableAll := false
  aliases := standardAliases

/-! ## Questions -/

def provider? (c : Config) (name : String) : Option ProviderSettings := c.providers.get? name

def quote? (c : Config) (symbol : String) : Option QuoteSettings := c.quotes.get? symbol

/-- Whether markets may have the quote. -/
def isTargetQuote (c : Config) (symbol : String) : Bool := c.quotes.contains symbol

/-- Whether the off-chain tickers of a venue are pairs of on-chain assets. -/
def isDefi (c : Config) (name : String) : Bool := (c.provider? name).any (·.isDefi)

/-- Whether a venue counts for nothing towards a market's least number of providers. -/
def isSupplemental (c : Config) (name : String) : Bool := (c.provider? name).any (·.isSupplemental)

/-- The least number of providers that a feed of a venue asks for. -/
def minProviderCountFor (c : Config) (name : String) : UInt64 :=
  if c.isDefi name then c.minDexProviderCount else c.minCexProviderCount

/-- The id of the asset that an asset stands for. -/
def resolveId (c : Config) (id : UInt64) : UInt64 := c.aliases.getD id id

def providerNames (c : Config) : List String := c.providers.keys

/-- The quote that a feed has once prices are normalized. -/
def settledQuote (c : Config) (quote : String) : String :=
  match (c.quote? quote).bind (·.normalizeBy) with
  | some pair => pair.quote
  | none => quote

end Config

end OracleMarkets
