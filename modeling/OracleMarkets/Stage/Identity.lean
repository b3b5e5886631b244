import OracleMarkets.Feed.Ranking
import OracleMarkets.Stage.Basic

/-!
# Which asset a symbol stands for

Several assets may share a symbol.  `resolveAliases` keeps, for each ticker, the feeds of one pair
of assets, where a wrapped asset counts as the asset it stands for; `resolveCmcConflicts` keeps the
feeds whose base has the id of the best feed of their ticker.
-/

namespace OracleMarkets

/-- The pair of assets of a feed, as a text of two ids. -/
def identityKey (c : Config) (f : Feed) : String :=
  s!"{c.resolveId f.cmc.baseId}-{c.resolveId f.cmc.quoteId}"

/-! ## One pair of assets for each ticker -/

/-- The best ranks among the feeds of a pair of assets. -/
structure IdentityRank where
  base : UInt64
  quote : UInt64
deriving DecidableEq, Repr

def IdentityRank.ofFeeds (feeds : List Feed) : IdentityRank where
  base := feeds.foldl (fun r f ↦ min r (effectiveRank f.cmc.baseRank)) unranked
  quote := feeds.foldl (fun r f ↦ min r (effectiveRank f.cmc.quoteRank)) unranked

/-- Compares pairs of assets by the ranks of base and quote and then by their keys. -/
def compareIdentity (a b : String × IdentityRank) : Ordering :=
  (compare a.2.base b.2.base).then ((compare a.2.quote b.2.quote).then (compare a.1 b.1))

/-- The first of the least elements of a list. -/
def leastBy? {α : Type} (cmp : α → α → Ordering) : List α → Option α
  | [] => none
  | a :: rest => some (rest.foldl (fun best x ↦ if cmp best x = .gt then x else best) a)

/-- The key of the pair of assets that the feeds of one ticker are taken to be about.  Assets
without a rank are not considered. -/
def winner? (c : Config) (group : List Feed) : Option String :=
  let ranks := (SortedMap.groupBy (identityKey c) group).mapValues fun _ fs ↦
    IdentityRank.ofFeeds fs
  (leastBy? compareIdentity (ranks.toList.filter fun e ↦ e.2.base ≠ unranked)).map (·.1)

def winners (c : Config) (feeds : List Feed) : SortedMap String (Option String) :=
  (SortedMap.groupBy Feed.tickerText feeds).mapValues fun _ group ↦ winner? c group

/-- Keeps the feeds of the winning pair of assets of each ticker.  A ticker without one is left out
without a record. -/
def resolveAliases : FeedStage := fun c feeds ↦
  let winners := winners c feeds
  let judged := feeds.filterMap fun f ↦
    (winners.getD f.tickerText none).map fun winner ↦
      let key := identityKey c f
      (f, if winner = key then none else some s!"naming alias {key} superseded by {winner}")
  .ok (sift judged)

/-! ## One base for each ticker -/

/-- The assets of the best feed of each ticker. -/
def references (feeds : List Feed) : SortedMap String (Option CmcInfo) :=
  (SortedMap.groupBy Feed.tickerText feeds).mapValues fun _ group ↦
    (Feed.sortByRank group).head?.map (·.cmc)

/-- Whether a feed is left out because its base has another id than `reference`. -/
def judgeReference (reference : CmcInfo) (f : Feed) :
    Except PipelineError (Feed × Option String) :=
  if f.cmc.baseId ≠ reference.baseId then
    .ok (f, some (s!"cmc id {f.cmc.baseId} (rank {f.cmc.baseRank}) conflicts with " ++
      s!"{reference.baseId} (rank {reference.baseRank})"))
  else if effectiveRank f.cmc.baseRank < effectiveRank reference.baseRank then
    .error (.invariant f.tickerText
      s!"feed from {f.venue} ranks {f.cmc.baseRank} ahead of chosen rank {reference.baseRank}")
  else .ok (f, none)

/-- Keeps the feeds whose base has the id of the best feed of their ticker. -/
def resolveCmcConflicts : FeedStage := fun _ feeds ↦ do
  let references := references feeds
  let judged ← feeds.mapM fun f ↦
    judgeReference ((references.getD f.tickerText none).getD f.cmc) f
  return sift judged

end OracleMarkets
