import OracleMarkets.Feed.Basic
import OracleMarkets.SortedMap.Lemmas

/-!
# Logs of drops

What is left out on the way from feeds to a market map is kept in a log: under each ticker, why,
from which venue, and what was left out, in the order in which it happened.
-/

namespace OracleMarkets

/-- One thing that was left out. -/
structure Drop (σ : Type) where
  reason : String
  provider : String
  /-- What was left out, as it was then. -/
  snapshot : σ

/-- Drops under tickers, the drops of one ticker in the order in which they happened. -/
abbrev DropLog (σ : Type) := SortedMap String (List (Drop σ))

/-- The feeds left out. -/
abbrev RemovalLog := DropLog Feed

/-- The markets left out, or left without a provider. -/
abbrev ExclusionLog := DropLog Market

namespace DropLog

variable {σ : Type}

def append (log : DropLog σ) (ticker : String) (drops : List (Drop σ)) : DropLog σ :=
  log.alter ticker fun old ↦ old.getD [] ++ drops

/-- Adds a drop. -/
def record (log : DropLog σ) (ticker reason provider : String) (snapshot : σ) : DropLog σ :=
  log.append ticker [⟨reason, provider, snapshot⟩]

/-- Adds all drops of another log after those of this one. -/
def merge (log other : DropLog σ) : DropLog σ :=
  other.toList.foldl (fun m e ↦ m.append e.1 e.2) log

/-- The number of drops of all tickers. -/
def count (log : DropLog σ) : Nat := log.values.flatten.length

def encodeDrops (snapshot : σ → Value) (drops : List (Drop σ)) : Value :=
  .list (drops.map fun d ↦
    .object [("reason", .text d.reason), ("provider", .text d.provider),
      ("snapshot", snapshot d.snapshot)])

def encode (snapshot : σ → Value) (log : DropLog σ) : Value :=
  .object (log.toList.map fun e ↦ (e.1, encodeDrops snapshot e.2))

def decodeDrop? (snapshot : Value → Option σ) (v : Value) : Option (Drop σ) := do
  let fs ← v.fields? ["reason", "provider", "snapshot"]
  let reason ← fs.required "reason" Value.text?
  let provider ← fs.required "provider" Value.text?
  let snapshot ← fs.required "snapshot" snapshot
  return ⟨reason, provider, snapshot⟩

def decode? (snapshot : Value → Option σ) (v : Value) : Option (DropLog σ) :=
  v.map? (Value.list? (decodeDrop? snapshot))

@[simp] theorem get?_append (log : DropLog σ) (ticker key : String) (drops : List (Drop σ)) :
    (log.append ticker drops).get? key =
      if key = ticker then some ((log.get? ticker).getD [] ++ drops) else log.get? key :=
  SortedMap.get?_alter log ticker key _

end DropLog

def RemovalLog.recordFeed (log : RemovalLog) (feed : Feed) (reason : String) : RemovalLog :=
  DropLog.record log feed.tickerText reason feed.venue feed

/-- Adds a market under its ticker, with the names of all its venues. -/
def ExclusionLog.recordMarket (log : ExclusionLog) (market : Market) (reason : String) :
    ExclusionLog :=
  DropLog.record log market.tickerText reason (",".intercalate market.providerNames) market

end OracleMarkets
