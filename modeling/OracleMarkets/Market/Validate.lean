import OracleMarkets.Market.Basic

/-!
# Valid markets

What a market has to be to stand in a market map under a given key.  The checks run in a fixed
order, and the first that fails is the error.
-/

namespace OracleMarkets

def maxMetadataLength : Nat := 16384

def checkMetadata (ticker metadata : String) : Except ValidationError Unit :=
  if metadata.utf8ByteSize ≤ maxMetadataLength then .ok ()
  else .error (.metadataTooLong ticker metadata.utf8ByteSize maxMetadataLength)

/-- Refuses a provider without a name or an off-chain ticker, one whose name is in `seen`, and one
whose metadata is too long. -/
def checkProvider (ticker : String) (seen : List String) (p : ProviderConfig) :
    Except ValidationError Unit :=
  if Text.isBlankText p.name then .error (.emptyProviderName ticker)
  else if Text.isBlankText p.offChainTicker then .error (.emptyOffChainTicker ticker p.name)
  else if p.name ∈ seen then .error (.duplicateProvider ticker p.name)
  else checkMetadata ticker p.metadata

/-- Checks providers one after another; `seen` are the names of those before them. -/
def checkProviders (ticker : String) (seen : List String) :
    List ProviderConfig → Except ValidationError Unit
  | [] => .ok ()
  | p :: rest => do
    checkProvider ticker seen p
    checkProviders ticker (p.name :: seen) rest

def Market.validate (key : String) (m : Market) : Except ValidationError Unit := do
  let ticker := m.tickerText
  if key ≠ ticker then throw (.marketKeyMismatch key ticker)
  m.ticker.pair.validate
  if m.ticker.decimals < 1 ∨ 36 < m.ticker.decimals then
    throw (.invalidDecimals ticker m.ticker.decimals)
  if m.ticker.minProviderCount = 0 then throw (.invalidMinProviderCount ticker)
  if m.providers.length < m.ticker.minProviderCount.toNat then
    throw (.notEnoughProviders ticker m.providers.length m.ticker.minProviderCount)
  checkMetadata ticker m.ticker.metadata
  checkProviders ticker [] m.providers

end OracleMarkets
