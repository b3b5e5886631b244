import OracleMarkets.Stage.Basic

/-!
# Stages over a market map

Six of the seven stages over a market map: what an operator excludes, disables, puts in use, asks of
every market or overrides, and the markets that have too few providers.
-/

namespace OracleMarkets

/-- Leaves out the markets to which `verdict` gives a reason. -/
def siftMarkets (verdict : Market → Option String) (m : MarketMap) : MarketMap × ExclusionLog :=
  (m.filter fun _ market ↦ (verdict market).isNone,
    m.values.foldl (fun log market ↦
      ((verdict market).map (ExclusionLog.recordMarket log market)).getD log) ∅)

/-- Why a market is left out by the lists of pairs.  The list of allowed pairs counts only if no
pair is excluded. -/
def unlisted? (c : Config) (market : Market) : Option String :=
  let pair := market.ticker.pair
  if !c.excludedPairs.isEmpty then
    if c.excludedPairs.contains pair then some "market is in exclude_currency_pairs" else none
  else if !c.allowedPairs.isEmpty then
    if c.allowedPairs.contains pair then none else some "market is not in allowed_currency_pairs"
  else none

/-- Leaves out excluded markets, or those that are not allowed. -/
def pruneMarkets : MarketStage := fun c m ↦ .ok (siftMarkets (unlisted? c) m)

/-- Takes the providers with the given names out of the market at `key`. -/
def disableAt (key : String) (names : List String) (state : MarketMap × ExclusionLog) :
    MarketMap × ExclusionLog :=
  match state.1.get? key with
  | none => state
  | some market =>
    let gone := market.providers.filter fun p ↦ names.contains p.name
    let left := market.providers.filter fun p ↦ !names.contains p.name
    (state.1.insert key { market with providers := left },
      gone.foldl (fun log p ↦
        DropLog.record log key s!"provider {p.name} disabled for {key}" p.name market)
        state.2)

/-- Takes disabled providers out of their markets. -/
def excludeDisabledProviders : MarketStage := fun c m ↦
  c.disabledProviders.toList.foldlM (fun state e ↦ do
    let pair ← liftValidation (CurrencyPair.parse e.1)
    return disableAt pair.text e.2 state) (m, ∅)

/-- Puts every market in use if the configuration says so. -/
def enableMarkets : MarketStage := fun c m ↦
  .ok (m.mapValues fun _ market ↦
    if c.enableAll then { market with ticker := { market.ticker with enabled := true } }
    else market, ∅)

/-- Why a market has too few providers. -/
def insufficient? (c : Config) (market : Market) : Option String :=
  let counted := market.providerNames.filter fun name ↦ !c.isSupplemental name
  if counted.length < market.ticker.minProviderCount.toNat then
    let names := ",".intercalate counted
    some (s!"{counted.length} counted providers [{names}] " ++
      s!"below min_provider_count {market.ticker.minProviderCount}")
  else none

/-- Leaves out markets with fewer providers than they ask for, supplemental ones not counted. -/
def pruneInsufficientMarkets : MarketStage := fun c m ↦ .ok (siftMarkets (insufficient? c) m)

/-- Makes every market ask for the same number of providers, if the configuration gives one. -/
def overrideMinProviderCount : MarketStage := fun c m ↦
  let forced := c.minProviderCountOverride
  .ok (m.mapValues fun _ market ↦
    if 0 < forced then { market with ticker := { market.ticker with minProviderCount := forced } }
    else market, ∅)

/-- Puts every overriding market in the place of the market of its ticker. -/
def overrideMarkets : MarketStage := fun c m ↦
  .ok (c.overrides.values.foldl MarketMap.insertMarket m, ∅)

end OracleMarkets
