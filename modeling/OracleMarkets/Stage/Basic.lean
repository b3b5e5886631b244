import OracleMarkets.Config.Basic
import OracleMarkets.DropLog

/-!
# Stages

A stage turns feeds into feeds, or a market map into a market map, under a configuration, and logs
what it leaves out.  A chain of stages runs them one after another and merges their logs; the first
stage that fails ends it.
-/

namespace OracleMarkets

/-- Why no market map can be made of feeds.  That a store does not answer is no error of a pipeline,
which begins with rows, but a failure of the command that asks for them; and what a pipeline writes
as JSON can always be written. -/
inductive PipelineError where
  | validation (cause : ValidationError)
  | missingQuoteConfig (quote : String)
  /-- No feed tells the price by which others are normalized. -/
  | adjustmentPriceUnavailable (pair : String)
  | unknownProvider (provider : String)
  /-- A feed is better than the best feed of its ticker. -/
  | invariant (ticker detail : String)
deriving DecidableEq, Repr

def PipelineError.message : PipelineError → String
  | .validation cause => cause.message
  | .missingQuoteConfig quote => s!"quote config for {quote} not found"
  | .adjustmentPriceUnavailable pair => s!"no feeds for {pair} to derive an adjustment price from"
  | .unknownProvider provider => s!"provider config for {provider} not found"
  | .invariant ticker detail => s!"internal invariant violated for {ticker}: {detail}"

def liftValidation {α : Type} : Except ValidationError α → Except PipelineError α :=
  Except.mapError .validation

/-- A step from an `α` to an `α` that logs what it leaves out. -/
abbrev Stage (α σ : Type) := Config → α → Except PipelineError (α × DropLog σ)

/-- The stages one after another. -/
def Stage.chain {α σ : Type} : List (Stage α σ) → Stage α σ
  | [], _, a => .ok (a, ∅)
  | stage :: rest, c, a => do
    let (a, log) ← stage c a
    let (a, more) ← chain rest c a
    return (a, log.merge more)

abbrev FeedStage := Stage (List Feed) Feed

abbrev MarketStage := Stage MarketMap Market

/-- The feeds without a reason to be left out, and the log of the others. -/
def sift (judged : List (Feed × Option String)) : List Feed × RemovalLog :=
  ((judged.filter fun j ↦ j.2.isNone).map (·.1),
    judged.foldl (fun log j ↦ (j.2.map (log.recordFeed j.1)).getD log) ∅)

/-- Leaves out the feeds to which `verdict` gives a reason. -/
def siftBy (verdict : Feed → Option String) (feeds : List Feed) : List Feed × RemovalLog :=
  sift (feeds.map fun f ↦ (f, verdict f))

end OracleMarkets
