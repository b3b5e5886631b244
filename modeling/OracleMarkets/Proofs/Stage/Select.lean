import OracleMarkets.Proofs.Ranking
import OracleMarkets.Proofs.SortedMap
import OracleMarkets.Proofs.Stage.Basic
import OracleMarkets.Stage.Select

/-!
# Picking feeds from groups

What is picked from the groups of a key is a part of what was grouped, and what is picked of a key
is picked from its group.  `resolveProviderConflicts` picks feeds from the groups of a ticker and a
venue, one from each group, so no two of its feeds share both.
-/

namespace OracleMarkets

variable {c : Config} {P : List Feed → Prop} {E : PipelineError → Prop}

open Stage (Meets)

/-! ## What is picked from groups -/

section Picking

variable {key : Feed → String} {pick : String → List Feed → List Feed}

/-- Feeds picked from groups are some of the feeds that were grouped. -/
theorem flatMap_groupBy_subperm (hpick : ∀ k group, (pick k group).Subperm group)
    (feeds : List Feed) :
    ((SortedMap.groupBy key feeds).toList.flatMap fun e ↦ pick e.1 e.2).Subperm feeds := by
  rw [List.flatMap_def]
  refine (flatten_subperm ?_).trans (SortedMap.flatten_values_groupBy_perm key feeds).subperm
  rw [SortedMap.values, List.forall₂_map_left_iff, List.forall₂_map_right_iff, List.forall₂_same]
  exact fun e _ ↦ hpick e.1 e.2

/-- If every group picks some of its own feeds, then those of a key are what its group picks. -/
theorem filter_flatMap_groupBy (hpick : ∀ k group, (pick k group).Subperm group)
    (feeds : List Feed) (k : String) :
    ((SortedMap.groupBy key feeds).toList.flatMap fun e ↦ pick e.1 e.2).filter
        (fun f ↦ key f = k) =
      pick k (feeds.filter fun f ↦ key f = k) := by
  have hentry : ∀ e ∈ (SortedMap.groupBy key feeds).toList,
      (pick e.1 e.2).filter (fun f ↦ key f = k) = if e.1 = k then pick k e.2 else [] := by
    intro e he
    have hkey : ∀ f ∈ pick e.1 e.2, key f = e.1 :=
      fun f hf ↦ SortedMap.key_of_mem_groupBy he ((hpick e.1 e.2).subset hf)
    split
    · next hk =>
      rw [← hk]
      exact List.filter_eq_self.2 fun f hf ↦ decide_eq_true (hkey f hf)
    · next hk =>
      exact List.filter_eq_nil_iff.2 fun f hf h ↦ hk ((hkey f hf).symm.trans (of_decide_eq_true h))
  have hnil : pick k [] = [] := List.subperm_nil.1 (hpick k [])
  calc ((SortedMap.groupBy key feeds).toList.flatMap fun e ↦ pick e.1 e.2).filter
        (fun f ↦ key f = k)
      = (SortedMap.groupBy key feeds).toList.flatMap
          fun e ↦ (pick e.1 e.2).filter fun f ↦ key f = k := List.filter_flatMap
    _ = (SortedMap.groupBy key feeds).toList.flatMap
          fun e ↦ if e.1 = k then pick k e.2 else [] := by
        rw [List.flatMap_def, List.flatMap_def, List.map_congr_left hentry]
    _ = ((SortedMap.groupBy key feeds).toList.filter fun e ↦ e.1 = k).flatMap
          fun e ↦ pick k e.2 := by
        generalize (SortedMap.groupBy key feeds).toList = entries
        induction entries with
        | nil => rfl
        | cons e entries ih =>
          rw [List.flatMap_cons, ih, List.filter_cons]
          by_cases hk : e.1 = k
          · rw [if_pos hk, if_pos (decide_eq_true hk), List.flatMap_cons]
          · rw [if_neg hk, if_neg (by simpa using hk), List.nil_append]
    _ = pick k (feeds.filter fun f ↦ key f = k) := by
        rw [SortedMap.filter_toList_eq, SortedMap.get?_groupBy]
        split
        · next hgroup =>
          rw [hgroup, hnil]
          rfl
        · exact List.flatMap_singleton _ _

end Picking

/-! ## One feed for each ticker and venue -/

def bestByVenue (group : List Feed) : List Feed :=
  (SortedMap.groupBy Feed.venue group).values.filterMap bestFeed?

theorem resolveProviderConflicts_eq (feeds : List Feed) :
    resolveProviderConflicts c feeds =
      .ok (Feed.sortCanonical ((SortedMap.groupBy Feed.tickerText feeds).values.flatMap
        bestByVenue), ∅) := rfl

theorem mem_of_bestFeed? {group : List Feed} {f : Feed} (h : bestFeed? group = some f) :
    f ∈ group := by
  cases group with
  | nil => cases h
  | cons g group =>
    rw [bestFeed?, Option.some.injEq] at h
    rw [← h]
    refine List.foldlRecOn group _ List.mem_cons_self fun best hbest x hx ↦ ?_
    split
    · exact List.mem_cons_of_mem g hx
    · exact hbest

theorem bestFeed?_subperm (group : List Feed) : (bestFeed? group).toList.Subperm group := by
  cases hb : bestFeed? group with
  | none => exact List.nil_subperm
  | some f => exact List.singleton_subperm_iff.2 (mem_of_bestFeed? hb)

theorem bestByVenue_subperm (group : List Feed) : (bestByVenue group).Subperm group := by
  rw [bestByVenue, List.filterMap_eq_flatMap_toList, SortedMap.flatMap_values]
  exact flatMap_groupBy_subperm (fun _ ↦ bestFeed?_subperm) group

theorem pairwise_bestByVenue (group : List Feed) :
    (bestByVenue group).Pairwise fun f g ↦ f.venue ≠ g.venue := by
  rw [bestByVenue, List.pairwise_filterMap, SortedMap.values, List.pairwise_map]
  refine (SortedMap.pairwise_toList_ne _).imp_of_mem fun {a b} ha hb hab f hf g hg ↦ ?_
  rw [SortedMap.key_of_mem_groupBy ha (mem_of_bestFeed? hf),
    SortedMap.key_of_mem_groupBy hb (mem_of_bestFeed? hg)]
  exact hab

/-- Feeds that are chosen from groups of different tickers have different tickers, and feeds that
are chosen from one group have different venues. -/
theorem onePerVenue_chosen (feeds : List Feed) :
    OnePerVenue ((SortedMap.groupBy Feed.tickerText feeds).values.flatMap bestByVenue) := by
  rw [OnePerVenue, List.pairwise_flatMap, SortedMap.values, List.pairwise_map]
  constructor
  · intro group _
    exact (pairwise_bestByVenue group).imp fun h hfg ↦ h hfg.2
  · refine (SortedMap.pairwise_toList_ne _).imp_of_mem fun {a b} ha hb hab f hf g hg hfg ↦ hab ?_
    rw [← SortedMap.key_of_mem_groupBy ha ((bestByVenue_subperm _).subset hf),
      ← SortedMap.key_of_mem_groupBy hb ((bestByVenue_subperm _).subset hg)]
    exact hfg.1

/-- No two feeds that are chosen share their ticker and their venue. -/
theorem resolveProviderConflicts_meets (hP : Inherited P) :
    Meets c resolveProviderConflicts P (fun feeds ↦ P feeds ∧ OnePerVenue feeds) E := by
  refine .of_ok fun feeds h ↦ ⟨_, _, resolveProviderConflicts_eq feeds, ?_, ?_⟩
  · rw [SortedMap.flatMap_values]
    exact hP ((Feed.sortCanonical_perm _).subperm.trans
      (flatMap_groupBy_subperm (fun _ ↦ bestByVenue_subperm) feeds)) h
  · exact inherited_onePerVenue (Feed.sortCanonical_perm _).subperm (onePerVenue_chosen feeds)

end OracleMarkets
