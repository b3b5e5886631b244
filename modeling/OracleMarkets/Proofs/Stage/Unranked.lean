import OracleMarkets.Proofs.BestFirst
import OracleMarkets.Proofs.Stage.Winners

/-!
# Having a rank and having none

A rank of 0 stands for none and is compared as the greatest number.  So a feed with any other rank
is better than a feed without one, and `resolveAliases` leaves a feed of every ticker that has a
feed with such a rank.  The greatest number is no such rank, though it is not 0: it compares as
none, and then depth and volume decide.
-/

namespace OracleMarkets

variable {c : Config} {feeds : List Feed} {ticker : String}

/-! ## Ranks -/

/-- A rank is compared as one unless it is 0 or the greatest number. -/
theorem effectiveRank_lt_unranked_iff {n : UInt64} :
    effectiveRank n < unranked ↔ n ≠ 0 ∧ n ≠ unranked := by
  rw [effectiveRank, lt_unranked_iff]
  by_cases h : n = 0
  · rw [if_pos h]
    exact iff_of_false (fun hne ↦ hne rfl) fun hne ↦ hne.1 h
  · rw [if_neg h]
    exact (and_iff_right h).symm

/-- The base of the feed has a rank that is compared as one. -/
def Feed.IsRanked (f : Feed) : Prop := f.cmc.baseRank ≠ 0 ∧ f.cmc.baseRank ≠ unranked

theorem Feed.isRanked_iff {f : Feed} : f.IsRanked ↔ effectiveRank f.cmc.baseRank < unranked :=
  effectiveRank_lt_unranked_iff.symm

/-- How feeds compare if only their depth and their volume count. -/
def Feed.compareUnranked (f g : Feed) : Ordering :=
  (compareTotal g.liquidity.total f.liquidity.total).then (compareTotal g.usdVolume f.usdVolume)

/-- A feed without a rank loses to every ranked feed, and competes with the others by depth and
volume. -/
theorem Feed.isBeatenBy_iff_of_baseRank_eq_zero {f g : Feed} (hg : g.cmc.baseRank = 0) :
    g.isBeatenBy f = true ↔ f.IsRanked ∨ f.compareUnranked g = .lt := by
  have hnone : effectiveRank g.cmc.baseRank = unranked := by
    rw [hg]
    rfl
  rw [isBeatenBy_iff, compareRank, hnone, Ordering.then_eq_lt, Std.compare_eq_lt, isRanked_iff,
    Std.compare_eq_iff_eq]
  refine or_congr_right' fun hrank ↦ and_iff_right ?_
  exact UInt64.le_antisymm (le_unranked _) (UInt64.not_lt.1 hrank)

/-! ## Tickers with a ranked feed -/

/-- A ticker has a candidate exactly if it has a ranked feed. -/
theorem exists_isCandidate_iff :
    (∃ a, IsCandidate c feeds ticker a) ↔ ∃ f ∈ feeds, f.tickerText = ticker ∧ f.IsRanked := by
  constructor
  · rintro ⟨a, f, hf, hrank⟩
    obtain ⟨hmem, hticker, -⟩ := mem_feedsAbout.1 hf
    exact ⟨f, hmem, hticker, Feed.isRanked_iff.2 hrank⟩
  · rintro ⟨f, hmem, hticker, hrank⟩
    exact ⟨f.assets c, f, mem_feedsAbout.2 ⟨hmem, hticker, rfl⟩, Feed.isRanked_iff.1 hrank⟩

/-- The stage keeps a feed of a ticker exactly if the ticker has a ranked feed. -/
theorem exists_resolveAliases_kept_iff (c : Config) (feeds : List Feed) :
    ∃ kept log, resolveAliases c feeds = .ok (kept, log) ∧ ∀ ticker,
      (∃ f ∈ kept, f.tickerText = ticker) ↔ ∃ f ∈ feeds, f.tickerText = ticker ∧ f.IsRanked := by
  choose winner hkey hwins hnone using exists_winner c feeds
  refine ⟨_, _, (resolveAliases_eq hkey).trans
    (congrArg Except.ok (Prod.ext (sift_judgeAlias_fst c feeds) rfl)), fun ticker ↦ ?_⟩
  rw [← exists_isCandidate_iff (c := c)]
  constructor
  · rintro ⟨f, hf, rfl⟩
    exact ⟨_, ((hwins _ _).1 (of_decide_eq_true (List.mem_filter.1 hf).2)).candidate⟩
  · rintro ⟨b, hb⟩
    cases hw : winner ticker with
    | none => exact absurd hb ((hnone ticker).1 hw b)
    | some a =>
      obtain ⟨f, hf, -⟩ := ((hwins ticker a).1 hw).candidate
      obtain ⟨hmem, rfl, rfl⟩ := mem_feedsAbout.1 hf
      exact ⟨f, List.mem_filter.2 ⟨hmem, decide_eq_true hw⟩, rfl⟩

/-- A feed with a rank is better than a feed without one, unless its rank is the greatest number:
then it is better exactly if it is deeper, or as deep and of more volume.  `resolveAliases` keeps a
feed of every ticker that has a feed with a rank below the greatest number, and of no other
ticker. -/
theorem ranked_beats_unranked (c : Config) (feeds : List Feed) :
    (∀ f g : Feed, f.cmc.baseRank ≠ 0 → g.cmc.baseRank = 0 →
      (g.isBeatenBy f = true ↔ f.cmc.baseRank ≠ unranked ∨ f.compareUnranked g = .lt)) ∧
    ∃ kept log, resolveAliases c feeds = .ok (kept, log) ∧ ∀ ticker,
      (∃ f ∈ kept, f.tickerText = ticker) ↔
        ∃ f ∈ feeds, f.tickerText = ticker ∧ f.cmc.baseRank ≠ 0 ∧ f.cmc.baseRank ≠ unranked := by
  refine ⟨fun f g hf hg ↦ ?_, exists_resolveAliases_kept_iff c feeds⟩
  rw [Feed.isBeatenBy_iff_of_baseRank_eq_zero hg, Feed.IsRanked, and_iff_right hf]

/-- A feed of a small rank and no depth is better than a deep one without a rank, and its ticker is
kept. -/
theorem ranked_beats_unranked_shallow :
    (Feed.ofRank 5 0.0).cmc.baseRank ≠ 0 ∧ (Feed.ofRank 0 9.0).cmc.baseRank = 0 ∧
      (Feed.ofRank 0 9.0).isBeatenBy (Feed.ofRank 5 0.0) = true ∧
      ∃ kept log,
        resolveAliases .standard [Feed.ofRank 0 9.0, Feed.ofRank 5 0.0] = .ok (kept, log) ∧
        ∃ f ∈ kept, f.tickerText = "BTC/USD" := by
  have hranked : (Feed.ofRank 5 0.0).cmc.baseRank ≠ 0 := by decide +kernel
  have hbelow : (Feed.ofRank 5 0.0).cmc.baseRank ≠ unranked := by decide +kernel
  have hnone : (Feed.ofRank 0 9.0).cmc.baseRank = 0 := rfl
  obtain ⟨hbetter, kept, log, hrun, hkept⟩ :=
    ranked_beats_unranked .standard [Feed.ofRank 0 9.0, Feed.ofRank 5 0.0]
  refine ⟨hranked, hnone, (hbetter _ _ hranked hnone).2 (.inl hbelow), kept, log, hrun, ?_⟩
  refine (hkept "BTC/USD").2 ⟨Feed.ofRank 5 0.0, by simp, rfl, hranked, hbelow⟩

/-- A feed with a rank may be beaten by one without, and be left out as if it had none. -/
theorem exists_ranked_beaten :
    ∃ f g : Feed, f.cmc.baseRank ≠ 0 ∧ g.cmc.baseRank = 0 ∧ g.isBeatenBy f = false ∧
      f.isBeatenBy g = true ∧ ∃ log, resolveAliases .standard [f] = .ok ([], log) := by
  refine ⟨Feed.ofRank unranked 0.0, Feed.ofRank 0 9.0, by decide +kernel, rfl, by decide +kernel,
    by decide +kernel, ?_⟩
  obtain ⟨log, hrun⟩ := resolveAliases_kept (c := .standard) [Feed.ofRank unranked 0.0]
  refine ⟨log, hrun.trans ?_⟩
  rw [List.filter_eq_nil_iff.2]
  intro f hf
  rw [List.mem_singleton.1 hf]
  decide +kernel

end OracleMarkets
