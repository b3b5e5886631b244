import OracleMarkets.Document.Decode
import OracleMarkets.Text.Blank

/-!
# Venue rows

A venue row is the latest observation of a pair by a venue, as it is taken in and kept.  Stores tell
rows apart by venue, off-chain ticker, base and quote, and put them in this order.
-/

namespace OracleMarkets

/-- By what a store tells rows apart. -/
structure RowKey where
  provider : String
  offChainTicker : String
  base : String
  quote : String
deriving DecidableEq, Repr

/-- What a venue observed of a pair. -/
structure VenueRow where
  key : RowKey
  quoteVolume : Float
  usdVolume : Float
  metadata : String
  referencePrice : Float
  negativeDepth : Float
  positiveDepth : Float
  baseId : UInt64
  quoteId : UInt64
  baseRank : UInt64
  quoteRank : UInt64

namespace RowKey

/-- Keys are ordered by venue, off-chain ticker, base and quote. -/
instance : Ord RowKey :=
  ⟨compareLex (compareOn provider)
    (compareLex (compareOn offChainTicker) (compareLex (compareOn base) (compareOn quote)))⟩

instance : Std.TransOrd RowKey :=
  inferInstanceAs (Std.TransCmp (compareLex (compareOn provider)
    (compareLex (compareOn offChainTicker) (compareLex (compareOn base) (compareOn quote)))))

theorem compare_eq (k l : RowKey) :
    compare k l = (compare k.provider l.provider).then
      ((compare k.offChainTicker l.offChainTicker).then
        ((compare k.base l.base).then (compare k.quote l.quote))) := rfl

instance : Std.LawfulEqOrd RowKey where
  compare_self {k} := by simp
  eq_of_compare {k l} h := by
    simp only [compare_eq, Ordering.then_eq_eq] at h
    cases k
    cases l
    simp_all

end RowKey

/-- Why a row is not taken in. -/
inductive RowError where
  | emptyProvider
  | emptyOffChainTicker (provider : String)
  | emptyPair (offChainTicker provider : String)
deriving DecidableEq, Repr

def RowError.message : RowError → String
  | .emptyProvider => "row rejected: provider_name must not be empty"
  | .emptyOffChainTicker provider =>
    s!"row rejected: off_chain_ticker must not be empty for provider '{provider}'"
  | .emptyPair offChainTicker provider =>
    s!"row rejected: target pair must not be empty for '{offChainTicker}' on '{provider}'"

namespace VenueRow

def venue (r : VenueRow) : String := r.key.provider

def validate (r : VenueRow) : Except RowError Unit :=
  if Text.isBlankText r.key.provider then .error .emptyProvider
  else if Text.isBlankText r.key.offChainTicker then .error (.emptyOffChainTicker r.key.provider)
  else if Text.isBlankText r.key.base ∨ Text.isBlankText r.key.quote then
    .error (.emptyPair r.key.offChainTicker r.key.provider)
  else .ok ()

def fieldNames : List String :=
  ["target_base", "target_quote", "off_chain_ticker", "provider_name", "quote_volume", "usd_volume",
    "metadata_json", "reference_price", "negative_depth_two", "positive_depth_two", "cmc_id_base",
    "cmc_id_quote", "base_rank", "quote_rank"]

def encode (r : VenueRow) : Value :=
  .object [("target_base", .text r.key.base), ("target_quote", .text r.key.quote),
    ("off_chain_ticker", .text r.key.offChainTicker), ("provider_name", .text r.key.provider),
    ("quote_volume", .amount r.quoteVolume), ("usd_volume", .amount r.usdVolume),
    ("metadata_json", .text r.metadata), ("reference_price", .amount r.referencePrice),
    ("negative_depth_two", .amount r.negativeDepth),
    ("positive_depth_two", .amount r.positiveDepth),
    ("cmc_id_base", .count r.baseId), ("cmc_id_quote", .count r.quoteId),
    ("base_rank", .count r.baseRank), ("quote_rank", .count r.quoteRank)]

/-- Reads a row, of which all but the parts of the key may be missing. -/
def decode? (v : Value) : Option VenueRow := do
  let fs ← v.fields? fieldNames
  let base ← fs.required "target_base" Value.text?
  let quote ← fs.required "target_quote" Value.text?
  let offChainTicker ← fs.required "off_chain_ticker" Value.text?
  let provider ← fs.required "provider_name" Value.text?
  let quoteVolume ← fs.withDefault "quote_volume" 0.0 Value.amount?
  let usdVolume ← fs.withDefault "usd_volume" 0.0 Value.amount?
  let metadata ← fs.withDefault "metadata_json" "" Value.text?
  let referencePrice ← fs.withDefault "reference_price" 0.0 Value.amount?
  let negativeDepth ← fs.withDefault "negative_depth_two" 0.0 Value.amount?
  let positiveDepth ← fs.withDefault "positive_depth_two" 0.0 Value.amount?
  let baseId ← fs.withDefault "cmc_id_base" 0 Value.count?
  let quoteId ← fs.withDefault "cmc_id_quote" 0 Value.count?
  let baseRank ← fs.withDefault "base_rank" 0 Value.count?
  let quoteRank ← fs.withDefault "quote_rank" 0 Value.count?
  return ⟨⟨provider, offChainTicker, base, quote⟩, quoteVolume, usdVolume, metadata, referencePrice,
    negativeDepth, positiveDepth, baseId, quoteId, baseRank, quoteRank⟩

end VenueRow

end OracleMarkets
