import OracleMarkets.Feed.Ranking
import OracleMarkets.Stage.Basic

/-!
# Restating feeds

Two stages change what a feed says: `invertOrDrop` turns feeds over so that their quote is one that
markets may have, and `normalize` tells their price in the quote that their own quote is priced in.
-/

namespace OracleMarkets

/-! ## Turning feeds over -/

/-- The feed with a quote that markets may have: itself, or itself turned over. -/
def restate? (c : Config) (f : Feed) : Option Feed :=
  if c.isTargetQuote f.pair.quote then some f
  else if c.isTargetQuote f.pair.base then
    some { f.inverted with provider := { f.provider with invert := true } }
  else none

/-- The restated feed, or the feed and why it is left out.  A feed may not end up as the price of a
symbol in itself. -/
def judgeRestated (c : Config) (f : Feed) : Feed × Option String :=
  match restate? c f with
  | none => (f, some "cannot be inverted to configured quotes")
  | some g =>
    let base := g.pair.base
    if base = c.settledQuote g.pair.quote then
      (g, some s!"{g.tickerText} would settle as {base}/{base}")
    else (g, none)

def invertOrDrop : FeedStage := fun c feeds ↦ .ok (sift (feeds.map (judgeRestated c)))

/-! ## Normalizing prices -/

/-- The mean price of each ticker. -/
def averagePrices (feeds : List Feed) : SortedMap String Float :=
  (SortedMap.groupBy Feed.tickerText feeds).mapValues fun _ group ↦
    group.foldl (fun sum f ↦ sum + f.referencePrice) 0.0 / Float.ofNat group.length

/-- The feed in the quote of `pair`, whose price is `adjustment`. -/
def Feed.rescale (f : Feed) (pair : CurrencyPair) (adjustment : Float) : Feed :=
  { f with
    ticker := { f.ticker with pair := .ofSymbols f.pair.base pair.quote }
    provider := { f.provider with normalizeBy := some pair }
    referencePrice := f.referencePrice * adjustment }

/-- The feed in the quote that its own quote is normalized to, at the given mean prices. -/
def normalizeFeed (c : Config) (averages : SortedMap String Float) (f : Feed) :
    Except PipelineError Feed :=
  match c.quote? f.pair.quote with
  | none => .error (.missingQuoteConfig f.pair.quote)
  | some settings =>
    match settings.normalizeBy with
    | none => .ok f
    | some pair =>
      match averages.get? pair.text with
      | none => .error (.adjustmentPriceUnavailable pair.text)
      | some adjustment => .ok (f.rescale pair adjustment)

/-- Tells every price in the quote that its quote is normalized to.  The mean prices are those from
before. -/
def normalize : FeedStage := fun c feeds ↦ do
  let feeds ← feeds.mapM (normalizeFeed c (averagePrices feeds))
  return (feeds, ∅)

end OracleMarkets
