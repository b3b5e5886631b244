import OracleMarkets.Document.Decode
import OracleMarkets.Json.Printer

/-!
# Metadata of generated tickers

The metadata of a generated ticker is a JSON text that tells the price as an integer, the liquidity,
and the id of the base at an aggregator.
-/

namespace OracleMarkets

/-- The id of an asset at an aggregator. -/
structure AggregateId where
  venue : String
  /-- The id, as a decimal text. -/
  id : String
deriving DecidableEq, Repr

/-- What the metadata of a ticker tells. -/
structure CoreMetadata where
  /-- The price times the power of ten of the ticker's decimals. -/
  referencePrice : UInt64
  liquidity : UInt64
  aggregateIds : List AggregateId
deriving DecidableEq, Repr

namespace AggregateId

def encode (a : AggregateId) : Value := .object [("venue", .text a.venue), ("ID", .text a.id)]

def decode? (v : Value) : Option AggregateId := do
  let fs ← v.fields? ["venue", "ID"]
  let venue ← fs.required "venue" Value.text?
  let id ← fs.required "ID" Value.text?
  return ⟨venue, id⟩

/-- The ids of an asset: none for the id 0. -/
def ofBase (baseId : UInt64) : List AggregateId :=
  if baseId = 0 then [] else [⟨"coinmarketcap", String.ofList (Decimal.digits baseId.toNat)⟩]

end AggregateId

/-! ## Scaling -/

/-- The product of `r` and the `n`-th power of `a`, by repeated squaring. -/
def mulPow (r a : Float) (n : Nat) : Float :=
  if n = 0 then r else mulPow (if n % 2 = 1 then r * a else r) (a * a) (n / 2)
termination_by n
decreasing_by omega

/-- The power of ten by which prices of a ticker are scaled.  Of the decimals, the low 32 bits
count, as a signed number; a negative power is the reciprocal of the positive one. -/
def priceScale (decimals : UInt64) : Float :=
  let n := Int.bmod decimals.toNat 0x100000000
  let p := mulPow 1.0 10.0 n.natAbs
  if n < 0 then 1.0 / p else p

/-- The nearest natural number of 64 bits, a half going up.  Numbers that are too large become the
greatest one; NaN and what is not positive become zero. -/
def roundToCount (x : Float) : UInt64 :=
  if x.isNaN ∨ x ≤ 0.0 then 0
  else
    let whole := x.toUInt64
    -- A number that is too large has the greatest one as its whole part, and that one stays.
    if whole ≠ 0xffffffffffffffff ∧ 0.5 ≤ x - whole.toFloat then whole + 1 else whole

namespace CoreMetadata

def ofPrice (referencePrice : Float) (decimals : UInt64) (liquidity : Float) (baseId : UInt64) :
    CoreMetadata where
  referencePrice := roundToCount (referencePrice * priceScale decimals)
  liquidity := roundToCount liquidity
  aggregateIds := AggregateId.ofBase baseId

def encode (m : CoreMetadata) : Value :=
  .object [("reference_price", .count m.referencePrice), ("liquidity", .count m.liquidity),
    ("aggregate_ids", .list (m.aggregateIds.map AggregateId.encode))]

def text (m : CoreMetadata) : String := Json.compact m.encode

def decode? (v : Value) : Option CoreMetadata := do
  let fs ← v.fields? ["reference_price", "liquidity", "aggregate_ids"]
  let referencePrice ← fs.required "reference_price" Value.count?
  let liquidity ← fs.required "liquidity" Value.count?
  let aggregateIds ← fs.required "aggregate_ids" (Value.list? AggregateId.decode?)
  return ⟨referencePrice, liquidity, aggregateIds⟩

end CoreMetadata

end OracleMarkets
