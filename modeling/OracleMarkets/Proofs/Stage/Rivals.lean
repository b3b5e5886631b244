import OracleMarkets.Proofs.Accounting
import OracleMarkets.Proofs.Least

/-!
# The feeds of a venue for one ticker

Of the feeds that share ticker and venue, `resolveProviderConflicts` keeps the first that no other
is better than.  The feeds that it keeps ascend strictly by pair and venue, so their order is
determined, and nothing happens to them if the stage runs again.
-/

namespace OracleMarkets

variable {c : Config} {feeds chosen : List Feed}

/-- The feeds of a ticker and a venue. -/
def rivals (feeds : List Feed) (ticker venue : String) : List Feed :=
  feeds.filter fun f ↦ f.tickerText = ticker ∧ f.venue = venue

theorem rivals_eq_filter (feeds : List Feed) (ticker venue : String) :
    rivals feeds ticker venue =
      (feeds.filter fun f ↦ f.tickerText = ticker).filter fun f ↦ f.venue = venue := by
  rw [rivals, List.filter_filter]
  refine List.filter_congr fun f _ ↦ ?_
  rw [Bool.decide_and, Bool.and_comm]

/-- What is chosen of a ticker and a venue, before the feeds are put in order. -/
theorem rivals_chosen (feeds : List Feed) (ticker venue : String) :
    rivals ((SortedMap.groupBy Feed.tickerText feeds).values.flatMap bestByVenue) ticker venue =
      (Feed.firstUnbeaten? (rivals feeds ticker venue)).toList := by
  rw [rivals_eq_filter, rivals_eq_filter, SortedMap.flatMap_values,
    filter_flatMap_groupBy fun _ ↦ bestByVenue_subperm, bestByVenue,
    List.filterMap_eq_flatMap_toList, SortedMap.flatMap_values,
    filter_flatMap_groupBy fun _ ↦ bestFeed?_subperm, bestFeed?_eq_firstUnbeaten?]

/-! ## The order of the chosen feeds -/

theorem pairwise_resolveProviderConflicts {log : RemovalLog}
    (hrun : resolveProviderConflicts c feeds = .ok (chosen, log)) :
    chosen.Pairwise fun f g ↦ (compare f.pair g.pair).then (compare f.venue g.venue) = .lt := by
  rw [resolveProviderConflicts_eq] at hrun
  cases hrun
  have hunique := inherited_onePerVenue (Feed.sortCanonical_perm _).subperm
    (onePerVenue_chosen feeds)
  refine ((Feed.pairwise_sortCanonical _).and hunique).imp fun h ↦ ?_
  refine Feed.lt_of_canonicalLe h.1 fun hfg ↦ h.2 ⟨congrArg CurrencyPair.text hfg.1, hfg.2⟩

/-- Feeds that ascend by pair and venue are determined by what feeds there are. -/
theorem eq_of_perm_of_ascending {l m : List Feed} (h : l.Perm m)
    (hl : l.Pairwise fun f g ↦ (compare f.pair g.pair).then (compare f.venue g.venue) = .lt)
    (hm : m.Pairwise fun f g ↦ (compare f.pair g.pair).then (compare f.venue g.venue) = .lt) :
    l = m := by
  have horiented : Std.OrientedCmp fun f g : Feed ↦
      (compare f.pair g.pair).then (compare f.venue g.venue) :=
    inferInstanceAs (Std.OrientedCmp (compareLex (compareOn Feed.pair) (compareOn Feed.venue)))
  refine List.Perm.eq_of_pairwise (fun f g _ _ hfg hgf ↦ ?_) hl hm h
  have hgt := horiented.gt_of_lt hfg
  rw [hgf] at hgt
  cases hgt

/-! ## What the stage selects -/

/-- Of rivals only the first unbeaten one is chosen. -/
theorem rivals_resolveProviderConflicts {log : RemovalLog}
    (hrun : resolveProviderConflicts c feeds = .ok (chosen, log)) (ticker venue : String) :
    rivals chosen ticker venue = (Feed.firstUnbeaten? (rivals feeds ticker venue)).toList := by
  rw [resolveProviderConflicts_eq] at hrun
  cases hrun
  have hperm := (Feed.sortCanonical_perm
    ((SortedMap.groupBy Feed.tickerText feeds).values.flatMap bestByVenue)).filter
      fun f ↦ f.tickerText = ticker ∧ f.venue = venue
  have hchosen := rivals_chosen feeds ticker venue
  rw [rivals] at hchosen ⊢
  rw [hchosen] at hperm
  cases hbest : Feed.firstUnbeaten? (rivals feeds ticker venue) with
  | none =>
    rw [hbest] at hperm
    exact hperm.eq_nil
  | some best =>
    rw [hbest] at hperm
    exact List.perm_singleton.1 hperm

/-- If no two feeds share ticker and venue, none is discarded. -/
theorem resolveProviderConflicts_perm {log : RemovalLog} (hfeeds : OnePerVenue feeds)
    (hrun : resolveProviderConflicts c feeds = .ok (chosen, log)) : feeds.Perm chosen := by
  obtain ⟨-, discarded, hout⟩ := outdone_resolveProviderConflicts hrun
  have hall := inherited_onePerVenue hout.perm.symm.subperm hfeeds
  have hnil : discarded = [] := by
    refine List.eq_nil_iff_forall_not_mem.2 fun f hf ↦ ?_
    obtain ⟨best, hbest, hbeats⟩ := hout.beaten f hf
    exact (List.pairwise_append.1 hall).2.2 best hbest f hf ⟨hbeats.ticker_eq, hbeats.venue_eq⟩
  have hperm := hout.perm
  rwa [hnil, List.append_nil] at hperm

/-- The stage never fails and logs nothing.  Of each ticker and venue it keeps one feed, the first
that no other feed of the ticker and the venue is better than.  What it keeps ascends strictly by
pair and venue, and stays as it is if the stage runs again. -/
theorem resolveProviderConflicts_selects (c : Config) (feeds : List Feed) :
    ∃ chosen, resolveProviderConflicts c feeds = .ok (chosen, ∅) ∧
      (∀ ticker venue,
        rivals chosen ticker venue = (Feed.firstUnbeaten? (rivals feeds ticker venue)).toList) ∧
      (∀ f ∈ feeds, ∃ best ∈ feeds, rivals chosen f.tickerText f.venue = [best]) ∧
      (chosen.Pairwise fun f g ↦
        (compare f.pair g.pair).then (compare f.venue g.venue) = .lt) ∧
      resolveProviderConflicts c chosen = .ok (chosen, ∅) := by
  have hrun := resolveProviderConflicts_eq (c := c) feeds
  have hrivals := rivals_resolveProviderConflicts hrun
  have hascending := pairwise_resolveProviderConflicts hrun
  refine ⟨_, hrun, hrivals, fun f hf ↦ ?_, hascending, ?_⟩
  · have hmem : f ∈ rivals feeds f.tickerText f.venue := by simp [rivals, hf]
    obtain ⟨best, hbest⟩ := Feed.exists_firstUnbeaten? hmem
    refine ⟨best, (List.mem_filter.1 (Feed.mem_of_firstUnbeaten? hbest)).1, ?_⟩
    rw [hrivals, hbest]
    rfl
  · have hunique := inherited_onePerVenue (Feed.sortCanonical_perm _).subperm
      (onePerVenue_chosen feeds)
    have hagain := resolveProviderConflicts_eq (c := c) (Feed.sortCanonical
      ((SortedMap.groupBy Feed.tickerText feeds).values.flatMap bestByVenue))
    have hperm := resolveProviderConflicts_perm hunique hagain
    rw [← eq_of_perm_of_ascending hperm hascending (pairwise_resolveProviderConflicts hagain)]
      at hagain
    exact hagain

end OracleMarkets
