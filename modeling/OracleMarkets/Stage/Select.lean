import OracleMarkets.Feed.Ranking
import OracleMarkets.Stage.Basic

/-!
# Selecting feeds of a venue

`resolveProviderConflicts` keeps one feed of a venue for each ticker, and `topFeeds` keeps as many
of a venue's feeds as its settings allow.  Both leave the feeds in canonical order.
-/

namespace OracleMarkets

/-- The first feed that no later one beats. -/
def bestFeed? : List Feed → Option Feed
  | [] => none
  | f :: rest => some (rest.foldl (fun best g ↦ if best.isBeatenBy g then g else best) f)

/-- The best feed of each ticker and venue.  The others are left out without a record. -/
def resolveProviderConflicts : FeedStage := fun _ feeds ↦
  let chosen := (SortedMap.groupBy Feed.tickerText feeds).values.flatMap fun group ↦
    (SortedMap.groupBy Feed.venue group).values.filterMap bestFeed?
  .ok (Feed.sortCanonical chosen, ∅)

/-- The feeds of a venue that its settings allow, and those that are too many. -/
def splitTop (c : Config) (venue : String) (group : List Feed) :
    Except PipelineError (List Feed × List (Feed × String)) :=
  match c.provider? venue with
  | none => .error (.unknownProvider venue)
  | some settings =>
    let limit := settings.filterTopAmount.toNat
    if limit = 0 ∨ group.length ≤ limit then .ok (group, [])
    else
      let ranked := Feed.sortByRank group
      .ok (ranked.take limit,
        (ranked.drop limit).map fun f ↦ (f, s!"only selecting top {limit} feeds"))

/-- Keeps the best feeds of each venue, as many as its settings allow. -/
def topFeeds : FeedStage := fun c feeds ↦ do
  let split ← (SortedMap.groupBy Feed.venue feeds).toList.mapM fun e ↦ splitTop c e.1 e.2
  let kept := split.flatMap (·.1)
  let removed := split.flatMap (·.2)
  return (Feed.sortCanonical kept, removed.foldl (fun log r ↦ RemovalLog.recordFeed log r.1 r.2) ∅)

end OracleMarkets
