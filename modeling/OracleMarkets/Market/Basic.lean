import OracleMarkets.CurrencyPair

/-!
# Markets

A market is a ticker with the providers that price it.  A provider is a venue, its own name for the
pair, and how the venue's price becomes a price of the market: turned over if `invert` is set, and
multiplied by the price of `normalizeBy` if there is one.
-/

namespace OracleMarkets

/-- What a market prices, and what a price needs to count. -/
structure Ticker where
  pair : CurrencyPair
  decimals : UInt64
  /-- The least number of providers that a price takes. -/
  minProviderCount : UInt64
  enabled : Bool
  metadata : String
deriving DecidableEq, Repr

/-- How a venue prices a market. -/
structure ProviderConfig where
  name : String
  /-- The venue's own name of the pair. -/
  offChainTicker : String
  /-- The pair whose price turns the venue's quote into the quote of the market. -/
  normalizeBy : Option CurrencyPair
  /-- Whether the venue prices the pair from the other side. -/
  invert : Bool
  metadata : String
deriving DecidableEq, Repr

/-- A ticker and the providers that price it. -/
structure Market where
  ticker : Ticker
  providers : List ProviderConfig
deriving DecidableEq, Repr

namespace Ticker

/-- A ticker that is not in use and has neither decimals nor metadata yet. -/
def ofPair (pair : CurrencyPair) (minProviderCount : UInt64) : Ticker :=
  ⟨pair, 0, minProviderCount, false, ""⟩

def encode (t : Ticker) : Value :=
  .object (t.pair.members ++
    [("decimals", .count t.decimals), ("minProviderCount", .count t.minProviderCount),
      ("enabled", .bool t.enabled), ("metadata", .text t.metadata)])

/-- What a ticker is read from.  The fields of its pair are not told apart from unknown ones. -/
def shape : Shape :=
  .record [("decimals", .count), ("minProviderCount", .count),
    ("enabled", .flag), ("metadata", .text)] true

/-- Reads a ticker from an object that holds the fields of its pair. -/
def decode? (v : Value) : Option Ticker := do
  let entries ← v.entries?
  let fs ← Fields.ofEntries? ["decimals", "minProviderCount", "enabled", "metadata"] entries
  let decimals ← fs.withDefault "decimals" 0 Value.count?
  let minProviderCount ← fs.required "minProviderCount" Value.count?
  let enabled ← fs.withDefault "enabled" false Value.bool?
  let metadata ← fs.withDefault "metadata" "" Value.text?
  let pair ← CurrencyPair.ofEntries? entries
  return ⟨pair, decimals, minProviderCount, enabled, metadata⟩

end Ticker

namespace ProviderConfig

def ofVenue (name offChainTicker : String) : ProviderConfig :=
  ⟨name, offChainTicker, none, false, ""⟩

/-- The provider as an object; a pair to normalize by is left out if there is none. -/
def encode (p : ProviderConfig) : Value :=
  .object ([("name", .text p.name), ("offChainTicker", .text p.offChainTicker)] ++
    (p.normalizeBy.map fun pair ↦ ("normalizeByPair", pair.encode)).toList ++
    [("invert", .bool p.invert), ("metadata", .text p.metadata)])

def fieldNames : List String := ["name", "offChainTicker", "normalizeByPair", "invert", "metadata"]

def shape : Shape :=
  .record [("name", .text), ("offChainTicker", .text),
    ("normalizeByPair", .optional CurrencyPair.shape), ("invert", .flag), ("metadata", .text)] false

def decode? (v : Value) : Option ProviderConfig := do
  let fs ← v.fields? fieldNames
  let name ← fs.required "name" Value.text?
  let offChainTicker ← fs.required "offChainTicker" Value.text?
  let normalizeBy ← fs.withDefault "normalizeByPair" none (Value.option? CurrencyPair.decode?)
  let invert ← fs.withDefault "invert" false Value.bool?
  let metadata ← fs.withDefault "metadata" "" Value.text?
  return ⟨name, offChainTicker, normalizeBy, invert, metadata⟩

end ProviderConfig

namespace Market

def tickerText (m : Market) : String := m.ticker.pair.text

def providerNames (m : Market) : List String := m.providers.map (·.name)

def providerLe (p q : ProviderConfig) : Bool := (compare p.name q.name).isLE

/-- The market with its providers in the order of their names; providers of one name keep their
order. -/
def sortProviders (m : Market) : Market := { m with providers := m.providers.mergeSort providerLe }

def encode (m : Market) : Value :=
  .object [("ticker", m.ticker.encode),
    ("providers", .list (m.providers.map ProviderConfig.encode))]

def shape : Shape :=
  .record [("ticker", Ticker.shape), ("providers", .list ProviderConfig.shape)] false

def decode? (v : Value) : Option Market := do
  let fs ← v.fields? ["ticker", "providers"]
  let ticker ← fs.required "ticker" Ticker.decode?
  let providers ← fs.withDefault "providers" [] (Value.list? ProviderConfig.decode?)
  return ⟨ticker, providers⟩

end Market

end OracleMarkets
