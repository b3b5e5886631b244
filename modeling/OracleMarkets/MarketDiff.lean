import OracleMarkets.Market.Map

/-!
# Differences of market maps

How a deployed market map becomes a generated one.  Markets are created and updated but never
removed: a deployed market that the generated map lacks is retained.
-/

namespace OracleMarkets

/-- How a deployed map becomes a generated one. -/
structure MarketDiff where
  created : List Market
  updated : List Market
  unchanged : List String
  /-- The keys of deployed markets that were not generated. -/
  retained : List String
deriving DecidableEq, Repr

/-- How a difference is made. -/
structure DiffOptions where
  /-- Whether a deployed market is put in or out of use as the generated one is. -/
  overwriteEnabled : Bool
deriving DecidableEq, Repr

namespace DiffOptions

def encode (o : DiffOptions) : Value := .object [("overwrite_enabled", .bool o.overwriteEnabled)]

def decode? (v : Value) : Option DiffOptions := do
  let fs ← v.fields? ["overwrite_enabled"]
  let overwriteEnabled ← fs.required "overwrite_enabled" Value.bool?
  return ⟨overwriteEnabled⟩

end DiffOptions

namespace MarketDiff

/-- The generated market as it is to be deployed in the place of a deployed one. -/
def candidate (o : DiffOptions) (deployed generated : Market) : Market :=
  if o.overwriteEnabled then generated
  else { generated with ticker := { generated.ticker with enabled := deployed.ticker.enabled } }

/-- The market to create at a key of the generated map, if the key is not deployed. -/
def created? (current : MarketMap) (key : String) (market : Market) : Option Market :=
  match current.get? key with
  | none => some market
  | some _ => none

/-- The market to write at a deployed key of the generated map, if it differs from the deployed
one. -/
def updated? (o : DiffOptions) (current : MarketMap) (key : String) (market : Market) :
    Option Market :=
  match current.get? key with
  | none => none
  | some deployed =>
    let candidate := candidate o deployed market
    if candidate = deployed then none else some candidate

/-- Whether the market at a key of the generated map is deployed already. -/
def isUnchanged (o : DiffOptions) (current : MarketMap) (key : String) (market : Market) : Bool :=
  match current.get? key with
  | none => false
  | some deployed => candidate o deployed market = deployed

/-- How `current` becomes `generated`. -/
def between (o : DiffOptions) (current generated : MarketMap) : MarketDiff where
  created := generated.toList.filterMap fun e ↦ created? current e.1 e.2
  updated := generated.toList.filterMap fun e ↦ updated? o current e.1 e.2
  unchanged := (generated.filter (isUnchanged o current)).keys
  retained := (current.filter fun key _ ↦ !generated.contains key).keys

/-- Whether nothing is created or updated. -/
def isNoop (d : MarketDiff) : Bool := d.created.isEmpty && d.updated.isEmpty

/-- The map with all created and updated markets under their tickers. -/
def apply (d : MarketDiff) (current : MarketMap) : MarketMap :=
  (d.created ++ d.updated).foldl MarketMap.insertMarket current

def encode (d : MarketDiff) : Value :=
  .object [("created", .list (d.created.map Market.encode)),
    ("updated", .list (d.updated.map Market.encode)),
    ("unchanged", .list (d.unchanged.map .text)), ("retained", .list (d.retained.map .text))]

def decode? (v : Value) : Option MarketDiff := do
  let fs ← v.fields? ["created", "updated", "unchanged", "retained"]
  let created ← fs.required "created" (Value.list? Market.decode?)
  let updated ← fs.required "updated" (Value.list? Market.decode?)
  let unchanged ← fs.required "unchanged" (Value.list? Value.text?)
  let retained ← fs.required "retained" (Value.list? Value.text?)
  return ⟨created, updated, unchanged, retained⟩

end MarketDiff

end OracleMarkets
