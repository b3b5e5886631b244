import OracleMarkets.Proofs.Least
import OracleMarkets.Proofs.SortedMap
import OracleMarkets.Proofs.Stage.Basic
import OracleMarkets.Stage.Identity

/-!
# One asset for each symbol

Both stages over identities leave out feeds and change none.  `resolveCmcConflicts` compares every
feed to the best feed of its ticker.  No feed is better than that one, so the stage never fails, and
feeds of one ticker have the same id of their base afterwards.
-/

namespace OracleMarkets

variable {c : Config} {P : List Feed → Prop} {E : PipelineError → Prop}

open Stage (Meets)

/-! ## One pair of assets for each ticker -/

/-- The feeds of the winning pair of assets of their ticker are kept in their order. -/
theorem resolveAliases_kept (feeds : List Feed) :
    ∃ log, resolveAliases c feeds =
      .ok (feeds.filter fun f ↦ (winners c feeds).getD f.tickerText none = some (identityKey c f),
        log) := by
  refine ⟨_, congrArg Except.ok (Prod.ext ?_ rfl)⟩
  rw [sift, ← List.filterMap_eq_map, ← List.filterMap_eq_filter, ← List.filterMap_eq_filter,
    List.filterMap_filterMap, List.filterMap_filterMap]
  refine List.filterMap_congr fun f _ ↦ ?_
  cases hw : (winners c feeds).getD f.tickerText none with
  | none => simp [Option.guard, hw]
  | some winner =>
    by_cases h : winner = identityKey c f
    · simp [Option.guard, hw, h]
    · simp [Option.guard, hw, h]

theorem resolveAliases_meets (hP : Inherited P) : Meets c resolveAliases P P E := by
  refine .of_ok fun feeds h ↦ ?_
  obtain ⟨log, hrun⟩ := resolveAliases_kept (c := c) feeds
  exact ⟨_, log, hrun, hP List.filter_sublist.subperm h⟩

/-! ## One base for each ticker -/

/-- The first feed of a ticker that no other is better than. -/
def bestOf (feeds : List Feed) (ticker : String) : Option Feed :=
  Feed.firstUnbeaten? (feeds.filter fun f ↦ f.tickerText = ticker)

theorem mem_of_bestOf {feeds : List Feed} {ticker : String} {best : Feed}
    (h : bestOf feeds ticker = some best) : best ∈ feeds ∧ best.tickerText = ticker := by
  obtain ⟨hmem, hticker⟩ := List.mem_filter.1 (Feed.mem_of_firstUnbeaten? h)
  exact ⟨hmem, of_decide_eq_true hticker⟩

/-- Every ticker of the feeds has a best feed. -/
theorem exists_bestOf {feeds : List Feed} {f : Feed} (hf : f ∈ feeds) :
    ∃ best, bestOf feeds f.tickerText = some best :=
  Feed.exists_firstUnbeaten? (List.mem_filter.2 ⟨hf, decide_eq_true rfl⟩)

/-- The assets that the feeds of a ticker are compared to, those of the feed itself if there are
none. -/
def reference (feeds : List Feed) (f : Feed) : CmcInfo :=
  ((references feeds).getD f.tickerText none).getD f.cmc

/-- A feed is compared to the best feed of its ticker. -/
theorem reference_eq {feeds : List Feed} {f best : Feed}
    (h : bestOf feeds f.tickerText = some best) : reference feeds f = best.cmc := by
  have hne : (feeds.filter fun g ↦ g.tickerText = f.tickerText) ≠ [] :=
    List.ne_nil_of_mem (Feed.mem_of_firstUnbeaten? h)
  rw [bestOf, ← Feed.head?_sortByRank] at h
  rw [reference, references, SortedMap.getD, SortedMap.get?_mapValues, SortedMap.get?_groupBy,
    if_neg hne, Option.map_some, h]
  rfl

/-- Feeds of one ticker are compared to the same assets. -/
theorem reference_congr {feeds : List Feed} {f g : Feed} (hf : f ∈ feeds)
    (h : f.tickerText = g.tickerText) : reference feeds f = reference feeds g := by
  obtain ⟨best, hbest⟩ := exists_bestOf hf
  rw [reference_eq hbest, reference_eq (h ▸ hbest)]

/-- Why a feed is left out if it is compared to `ref`. -/
def conflict? (ref : CmcInfo) (f : Feed) : Option String :=
  if f.cmc.baseId ≠ ref.baseId then
    some (s!"cmc id {f.cmc.baseId} (rank {f.cmc.baseRank}) conflicts with " ++
      s!"{ref.baseId} (rank {ref.baseRank})")
  else none

theorem conflict?_eq_none_iff {ref : CmcInfo} {f : Feed} :
    conflict? ref f = none ↔ f.cmc.baseId = ref.baseId := by
  simp [conflict?]

/-- A feed that is no better than the reference is judged without failure. -/
theorem judgeReference_eq {ref : CmcInfo} {f : Feed}
    (h : effectiveRank ref.baseRank ≤ effectiveRank f.cmc.baseRank) :
    judgeReference ref f = .ok (f, conflict? ref f) := by
  unfold judgeReference conflict?
  split
  · rfl
  · rw [if_neg (UInt64.not_lt.2 h)]

/-- The feeds whose base has the id of the best feed of their ticker are kept in their order, and
the stage never fails. -/
theorem resolveCmcConflicts_eq (feeds : List Feed) :
    resolveCmcConflicts c feeds = .ok (siftBy (fun f ↦ conflict? (reference feeds f) f) feeds) := by
  have hjudged : feeds.mapM (fun f ↦ judgeReference (reference feeds f) f) =
      .ok (feeds.map fun f ↦ (f, conflict? (reference feeds f) f)) := by
    rw [mapM_eq_ok_iff, List.forall₂_map_right_iff, List.forall₂_same]
    intro f hf
    obtain ⟨best, hbest⟩ := exists_bestOf hf
    refine judgeReference_eq ?_
    rw [reference_eq hbest]
    exact Feed.effectiveRank_le_of_rankLe (Feed.rankLe_of_firstUnbeaten? hbest
      (List.mem_filter.2 ⟨hf, decide_eq_true rfl⟩))
  exact congrArg (fun judged ↦ judged >>= fun judged ↦ pure (sift judged)) hjudged

/-- The feeds of a ticker that are left have one id of their base. -/
theorem resolveCmcConflicts_meets (hP : Inherited P) :
    Meets c resolveCmcConflicts P (fun feeds ↦ P feeds ∧ OneBase feeds) E := by
  refine .of_ok fun feeds h ↦ ⟨_, _, resolveCmcConflicts_eq feeds, (siftBy_spec hP h).1, ?_⟩
  intro f hf g hg hfg
  obtain ⟨hfm, hfr⟩ := mem_siftBy.1 hf
  obtain ⟨-, hgr⟩ := mem_siftBy.1 hg
  rw [conflict?_eq_none_iff.1 hfr, conflict?_eq_none_iff.1 hgr, reference_congr hfm hfg]

end OracleMarkets
