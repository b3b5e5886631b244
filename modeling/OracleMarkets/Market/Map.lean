import OracleMarkets.Market.Validate

/-!
# Market maps

A market map holds markets under ticker texts.  It is valid if each market is valid under its key
and each pair by which a provider is normalized names a market of the map, which is enabled if the
provider's market is.
-/

namespace OracleMarkets

abbrev MarketMap := SortedMap String Market

namespace MarketMap

def insertMarket (m : MarketMap) (market : Market) : MarketMap := m.insert market.tickerText market

/-- The map without the market of a ticker. -/
def removeMarket (m : MarketMap) (ticker : String) : MarketMap := m.erase ticker

/-- The map of a list of markets, a later one winning over an earlier one of its ticker. -/
def ofMarkets (markets : List Market) : MarketMap := markets.foldl insertMarket ∅

def enabledCount (m : MarketMap) : Nat :=
  (m.values.filter fun market ↦ market.ticker.enabled).length

/-- Refuses a provider of the market at `key` that is normalized by a pair without a market, or
whose market is enabled while that market is not. -/
def checkReference (m : MarketMap) (key : String) (market : Market) (p : ProviderConfig) :
    Except ValidationError Unit :=
  match p.normalizeBy with
  | none => .ok ()
  | some pair =>
    match m.get? pair.text with
    | none => .error (.danglingNormalizeBy key p.name pair.text)
    | some normalizer =>
      if market.ticker.enabled ∧ ¬ normalizer.ticker.enabled then
        .error (.disabledNormalizeBy key pair.text)
      else .ok ()

/-- Refuses a map that is not valid: first the markets are checked one by one, then the pairs by
which their providers are normalized. -/
def validate (m : MarketMap) : Except ValidationError Unit := do
  m.toList.forM fun e ↦ e.2.validate e.1
  m.toList.forM fun e ↦ e.2.providers.forM (m.checkReference e.1 e.2)

def encode (m : MarketMap) : Value := .object (m.toList.map fun e ↦ (e.1, e.2.encode))

/-- Reads a market map; whether a market belongs under its key is not checked. -/
def decode? (v : Value) : Option MarketMap := v.map? Market.decode?

end MarketMap

end OracleMarkets
