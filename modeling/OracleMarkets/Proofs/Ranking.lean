import OracleMarkets.Feed.Ranking
import OracleMarkets.Proofs.Sorting

/-!
# The orders of feeds

Both comparisons of feeds compare keys one after another, so both are lawful.  Feeds that compare
equal in canonical order have the same pair, venue and off-chain ticker.  The rank of its base comes
first in the rank of a feed, so a better feed has no worse one.
-/

namespace OracleMarkets

namespace Feed

instance : Std.TransCmp compareRank :=
  haveI : Std.TransCmp fun f g ↦ compareOn (fun f : Feed ↦ totalOrderKey f.liquidity.total) g f :=
    .opposite
  haveI : Std.TransCmp fun f g ↦ compareOn (fun f : Feed ↦ totalOrderKey f.usdVolume) g f :=
    .opposite
  inferInstanceAs (Std.TransCmp (compareLex (compareOn fun f : Feed ↦ effectiveRank f.cmc.baseRank)
    (compareLex (fun f g ↦ compareOn (fun f : Feed ↦ totalOrderKey f.liquidity.total) g f)
      fun f g ↦ compareOn (fun f : Feed ↦ totalOrderKey f.usdVolume) g f)))

instance : Std.TransCmp compareCanonical :=
  inferInstanceAs (Std.TransCmp (compareLex (compareOn pair)
    (compareLex (compareOn venue) (compareOn fun f ↦ f.provider.offChainTicker))))

/-! ## Canonical order -/

/-- Feeds compare as equal exactly if they have the same pair, venue and off-chain ticker. -/
theorem compareCanonical_eq_eq {f g : Feed} :
    f.compareCanonical g = .eq ↔
      f.pair = g.pair ∧ f.venue = g.venue ∧
      f.provider.offChainTicker = g.provider.offChainTicker := by
  simp [compareCanonical, Ordering.then_eq_eq]

theorem sortCanonical_eq_insertionSort (feeds : List Feed) :
    sortCanonical feeds = feeds.insertionSort fun f g ↦ f.canonicalLe g = true :=
  mergeSort_eq_insertionSort _ feeds

theorem sortCanonical_perm (feeds : List Feed) : (sortCanonical feeds).Perm feeds :=
  List.mergeSort_perm feeds _

/-- Lists with the same feeds have the same canonical order if no two of these feeds share pair,
venue and off-chain ticker. -/
theorem sortCanonical_eq_of_perm {l m : List Feed} (h : l.Perm m)
    (heq : ∀ f ∈ l, ∀ g ∈ l, f.pair = g.pair → f.venue = g.venue →
      f.provider.offChainTicker = g.provider.offChainTicker → f = g) :
    sortCanonical l = sortCanonical m := by
  refine mergeSort_eq_of_perm _ h fun f hf g hg hfg ↦ ?_
  obtain ⟨hpair, hvenue, hticker⟩ := compareCanonical_eq_eq.1 hfg
  exact heq f hf g hg hpair hvenue hticker

/-- Feeds may be left out before or after they are put in canonical order. -/
theorem filter_sortCanonical (p : Feed → Bool) (feeds : List Feed) :
    (sortCanonical feeds).filter p = sortCanonical (feeds.filter p) :=
  filter_mergeSort _ p feeds

/-- Feeds in canonical order ascend by pair, venue and off-chain ticker. -/
theorem pairwise_sortCanonical (feeds : List Feed) :
    (sortCanonical feeds).Pairwise fun f g ↦ f.canonicalLe g = true :=
  pairwise_mergeSort_isLE _ feeds

/-- Of two feeds that do not share both pair and venue, the earlier one is less by these. -/
theorem lt_of_canonicalLe {f g : Feed} (hle : f.canonicalLe g = true)
    (hne : ¬(f.pair = g.pair ∧ f.venue = g.venue)) :
    (compare f.pair g.pair).then (compare f.venue g.venue) = .lt := by
  rw [canonicalLe, compareCanonical] at hle
  cases hpair : compare f.pair g.pair with
  | lt => rfl
  | gt => simp [hpair] at hle
  | eq =>
    cases hvenue : compare f.venue g.venue with
    | lt => rfl
    | gt => simp [hpair, hvenue] at hle
    | eq =>
      exact absurd ⟨Std.LawfulEqCmp.eq_of_compare hpair, Std.LawfulEqCmp.eq_of_compare hvenue⟩ hne

/-! ## Order by rank -/

theorem not_isBeatenBy (f g : Feed) : (!f.isBeatenBy g) = (f.compareRank g).isLE := by
  rw [isBeatenBy]
  cases f.compareRank g <;> rfl

/-- Sorting by rank is insertion sort, so that feeds that tie keep their order. -/
theorem sortByRank_eq_insertionSort (feeds : List Feed) :
    sortByRank feeds = feeds.insertionSort fun f g ↦ f.rankLe g = true :=
  mergeSort_eq_insertionSort _ feeds

theorem sortByRank_perm (feeds : List Feed) : (sortByRank feeds).Perm feeds :=
  List.mergeSort_perm feeds _

/-- In feeds that are put in order by rank, the better feed comes first. -/
theorem pairwise_sortByRank (feeds : List Feed) :
    (sortByRank feeds).Pairwise fun f g ↦ f.rankLe g = true :=
  pairwise_mergeSort_isLE _ feeds

/-- A feed that is as good as another has as good a rank. -/
theorem effectiveRank_le_of_rankLe {f g : Feed} (h : f.rankLe g = true) :
    effectiveRank f.cmc.baseRank ≤ effectiveRank g.cmc.baseRank := by
  rw [rankLe, compareRank, Ordering.isLE_then_iff_and] at h
  exact Std.isLE_compare.1 h.1

end Feed

end OracleMarkets
