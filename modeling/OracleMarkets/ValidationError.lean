/-!
# Validation errors

Why a pair, a configuration, a market map, an envelope or a timestamp is refused.  The wording of
each cause stands in `ValidationError.message` and nowhere else.
-/

namespace OracleMarkets

/-- Why a value is refused. -/
inductive ValidationError where
  /-- A text is no currency pair, or a pair has a symbol that it may not have. -/
  | invalidCurrencyPair (value : String)
  | zeroMinProviderCount (field : String)
  | conflictingPairFilters
  | normalizeByBaseMismatch (quote pair : String)
  | normalizeByQuoteUnknown (quote pair target : String)
  | invalidThreshold (owner field : String)
  | marketKeyMismatch (key ticker : String)
  | invalidDecimals (ticker : String) (decimals : UInt64)
  | invalidMinProviderCount (ticker : String)
  | notEnoughProviders (ticker : String) (providers : Nat) (required : UInt64)
  | emptyProviderName (ticker : String)
  | emptyOffChainTicker (ticker provider : String)
  | duplicateProvider (ticker provider : String)
  | metadataTooLong (ticker : String) (length max : Nat)
  | danglingNormalizeBy (ticker provider pair : String)
  | disabledNormalizeBy (ticker pair : String)
  | invalidRequestId
  | invalidSchemaVersion (value : String)
  | timestampNotUtc (value : String)
  | emptyErrorCode
  | emptyErrorMessage
deriving DecidableEq, Repr

def ValidationError.message : ValidationError → String
  | .invalidCurrencyPair value => s!"currency pair '{value}' must have the form BASE/QUOTE"
  | .zeroMinProviderCount field => s!"{field} must be greater than zero"
  | .conflictingPairFilters =>
    "exclude_currency_pairs and allowed_currency_pairs cannot both be set"
  | .normalizeByBaseMismatch quote pair =>
    s!"normalize-by pair {pair} for quote {quote} must have {quote} as its base"
  | .normalizeByQuoteUnknown quote pair target =>
    s!"normalize-by pair {pair} for quote {quote} has no quote config for {target}"
  | .invalidThreshold owner field => s!"field '{field}' of {owner} must be finite and non-negative"
  | .marketKeyMismatch key ticker => s!"market key '{key}' does not match ticker {ticker}"
  | .invalidDecimals ticker decimals => s!"market {ticker}: decimals {decimals} outside 1..=36"
  | .invalidMinProviderCount ticker => s!"market {ticker}: min_provider_count must be at least 1"
  | .notEnoughProviders ticker providers required =>
    s!"market {ticker}: {providers} providers is fewer than min_provider_count {required}"
  | .emptyProviderName ticker => s!"market {ticker}: provider name cannot be empty"
  | .emptyOffChainTicker ticker provider =>
    s!"market {ticker}: provider {provider} has an empty off-chain ticker"
  | .duplicateProvider ticker provider =>
    s!"market {ticker}: provider {provider} is listed more than once"
  | .metadataTooLong ticker length max =>
    s!"market {ticker}: metadata is {length} bytes, max {max}"
  | .danglingNormalizeBy ticker provider pair =>
    s!"market {ticker}: provider {provider} normalizes by {pair} which is not in the market map"
  | .disabledNormalizeBy ticker pair =>
    s!"market {ticker} is enabled but its normalize-by market {pair} is disabled"
  | .invalidRequestId => "request_id must be at least 8 characters"
  | .invalidSchemaVersion value => s!"schema_version must match vMAJOR.MINOR.PATCH: '{value}'"
  | .timestampNotUtc value => s!"timestamp must be RFC3339 UTC (suffix Z): '{value}'"
  | .emptyErrorCode => "error code cannot be empty"
  | .emptyErrorMessage => "error message cannot be empty"

end OracleMarkets
