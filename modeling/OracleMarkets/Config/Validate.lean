import OracleMarkets.Config.Basic

/-!
# Consistent configurations

What a configuration has to be before a market map is made of it.  The checks run in a fixed order,
and the first that fails is the error.
-/

namespace OracleMarkets.Config

def checkThreshold (owner field : String) (x : Float) : Except ValidationError Unit :=
  if x.isFinite ∧ 0.0 ≤ x then .ok () else .error (.invalidThreshold owner field)

def checkProvider (name : String) (s : ProviderSettings) : Except ValidationError Unit := do
  let owner := s!"provider {name}"
  checkThreshold owner "min_usd_volume" s.minUsdVolume
  checkThreshold owner "min_provider_liquidity" s.minProviderLiquidity

/-- Refuses a pair by which a quote is normalized if its base is not the quote, or if its quote has
no settings. -/
def checkNormalizer (c : Config) (quote : String) (pair : CurrencyPair) :
    Except ValidationError Unit :=
  if pair.base ≠ quote then .error (.normalizeByBaseMismatch quote pair.text)
  else if !c.isTargetQuote pair.quote then
    .error (.normalizeByQuoteUnknown quote pair.text pair.quote)
  else .ok ()

/-- Refuses the thresholds of a quote and the pair by which it is normalized. -/
def checkQuote (c : Config) (quote : String) (s : QuoteSettings) : Except ValidationError Unit := do
  let owner := s!"quote {quote}"
  checkThreshold owner "min_provider_volume" s.minProviderVolume
  checkThreshold owner "min_provider_liquidity" s.minProviderLiquidity
  s.normalizeBy.forM (c.checkNormalizer quote)

def validate (c : Config) : Except ValidationError Unit := do
  if c.minCexProviderCount = 0 then throw (.zeroMinProviderCount "min_cex_provider_count")
  if c.minDexProviderCount = 0 then throw (.zeroMinProviderCount "min_dex_provider_count")
  if !c.excludedPairs.isEmpty && !c.allowedPairs.isEmpty then throw .conflictingPairFilters
  c.providers.toList.forM fun e ↦ checkProvider e.1 e.2
  c.quotes.toList.forM fun e ↦ c.checkQuote e.1 e.2
  c.disabledProviders.keys.forM fun ticker ↦ (CurrencyPair.parse ticker).map fun _ ↦ ()
  c.overrides.validate

end OracleMarkets.Config
