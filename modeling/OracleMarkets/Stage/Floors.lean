import OracleMarkets.Decimal.Layout
import OracleMarkets.Stage.Basic

/-!
# Floors

Five stages look at one feed at a time and leave out those that do not reach a floor of their quote
or venue, or that lack an id which their venue requires.  A floor of zero asks for nothing.
-/

namespace OracleMarkets

def numeral (x : Float) : String := Decimal.Layout.inText.render x

def shallow? (owner : String) (floor : Float) (f : Feed) : Option String :=
  if 0.0 < floor ∧ ¬ f.liquidity.isSufficient floor then
    let negative := numeral f.liquidity.negativeDepth
    let positive := numeral f.liquidity.positiveDepth
    some s!"liquidity {negative}/{positive} below {owner} floor {numeral floor}"
  else none

def quiet? (kind owner : String) (floor volume : Float) : Option String :=
  if 0.0 < floor ∧ volume < floor then
    some s!"{kind} volume {numeral volume} below {owner} floor {numeral floor}"
  else none

/-- The verdict by the settings of a feed's quote, unless the venue is let off. -/
def byQuote (exempt : ProviderSettings → Bool) (verdict : QuoteSettings → Feed → Option String)
    (c : Config) (f : Feed) : Option String :=
  if (c.provider? f.venue).any exempt then none
  else match c.quote? f.pair.quote with
    | none => some s!"quote config for {f.pair.quote} not found"
    | some settings => verdict settings f

/-- The verdict by the settings of a feed's venue, unless the venue is let off. -/
def byProvider (exempt : ProviderSettings → Bool)
    (verdict : ProviderSettings → Feed → Option String) (c : Config) (f : Feed) : Option String :=
  match c.provider? f.venue with
  | none => some s!"provider config for {f.venue} not found"
  | some settings => if exempt settings then none else verdict settings f

def pruneByLiquidity : FeedStage := fun c feeds ↦
  .ok (siftBy (byQuote (·.ignoreLiquidity)
    (fun s f ↦ shallow? f.pair.quote s.minProviderLiquidity f) c) feeds)

/-- Leaves out feeds with less volume than the floor of their quote. -/
def pruneByQuoteVolume : FeedStage := fun c feeds ↦
  .ok (siftBy (byQuote (·.ignoreVolume)
    (fun s f ↦ quiet? "quote" f.pair.quote s.minProviderVolume f.quoteVolume) c) feeds)

def pruneByProviderLiquidity : FeedStage := fun c feeds ↦
  .ok (siftBy (byProvider (·.ignoreLiquidity)
    (fun s f ↦ shallow? f.venue s.minProviderLiquidity f) c) feeds)

/-- Leaves out feeds with less volume in dollars than the floor of their venue. -/
def pruneByProviderUsdVolume : FeedStage := fun c feeds ↦
  .ok (siftBy (byProvider (·.ignoreVolume)
    (fun s f ↦ quiet? "usd" f.venue s.minUsdVolume f.usdVolume) c) feeds)

def lacksId? (c : Config) (f : Feed) : Option String :=
  if (c.provider? f.venue).any (·.requiresAggregateIds) ∧ f.cmc.baseId = 0 then
    some "provider requires aggregate ids but feed has none"
  else none

/-- Leaves out feeds without an id of their base from venues that require one. -/
def dropFeedsWithoutIds : FeedStage := fun c feeds ↦ .ok (siftBy (lacksId? c) feeds)

end OracleMarkets
