import OracleMarkets.Proofs.Config
import OracleMarkets.Proofs.Stage.Winners

/-!
# Feeds about another base than the best feed

`resolveCmcConflicts` compares every feed to the best feed of its ticker, the first that no other is
better than, and keeps it if both have the same id of their base.  Here a wrapped asset is not the
asset it stands for.  `resolveAliases` takes them to be the same, so of the feeds that it keeps the
later stage drops those whose base is wrapped otherwise than that of the best feed.
-/

namespace OracleMarkets

variable {c : Config} {feeds : List Feed}

/-! ## What the stage keeps and logs -/

/-- What is logged of a ticker with the given best feed: the feeds with another id of their base. -/
def conflicting (feeds : List Feed) (ticker : String) : Option Feed → List (Drop Feed)
  | none => []
  | some best =>
    (feeds.filter fun f ↦ f.tickerText = ticker ∧ f.cmc.baseId ≠ best.cmc.baseId).map fun f ↦
      DropLog.ofFeed f (s!"cmc id {f.cmc.baseId} (rank {f.cmc.baseRank}) conflicts with " ++
        s!"{best.cmc.baseId} (rank {best.cmc.baseRank})")

/-- A feed is kept exactly if its base has the id of the best feed of its ticker. -/
theorem conflict?_reference_isNone {f : Feed} (hf : f ∈ feeds) :
    (conflict? (reference feeds f) f).isNone = decide
      ((bestOf feeds f.tickerText).map (·.cmc.baseId) = some f.cmc.baseId) := by
  obtain ⟨best, hbest⟩ := exists_bestOf hf
  rw [Bool.eq_iff_iff, Option.isNone_iff_eq_none, conflict?_eq_none_iff, reference_eq hbest, hbest,
    decide_eq_true_iff, Option.map_some, Option.some.injEq, eq_comm]

/-- The log of a ticker holds the feeds that conflict with the best one. -/
theorem getD_conflicts (feeds : List Feed) (ticker : String) :
    (siftBy (fun f ↦ conflict? (reference feeds f) f) feeds).2.getD ticker [] =
      conflicting feeds ticker (bestOf feeds ticker) := by
  rw [getD_siftBy_snd]
  cases hb : bestOf feeds ticker with
  | none =>
    have hnil : (feeds.filter fun f ↦ f.tickerText = ticker) = [] := by
      refine List.filter_eq_nil_iff.2 fun f hf hticker ↦ ?_
      obtain ⟨best, hbest⟩ := exists_bestOf hf
      rw [of_decide_eq_true hticker, hb] at hbest
      cases hbest
    rw [hnil]
    rfl
  | some best =>
    rw [conflicting, ← List.filterMap_eq_map, ← List.filterMap_eq_filter,
      ← List.filterMap_eq_filter, List.filterMap_filterMap, List.filterMap_filterMap]
    refine List.filterMap_congr fun f _ ↦ ?_
    by_cases hticker : f.tickerText = ticker
    · have href : reference feeds f = best.cmc := reference_eq (hticker ▸ hb)
      by_cases hid : f.cmc.baseId = best.cmc.baseId
      · simp [Option.guard, hticker, href, hid, conflict?]
      · simp [Option.guard, hticker, href, hid, conflict?]
    · simp [Option.guard, hticker]

/-- The stage never fails.  It keeps the feeds whose base has the id of the best feed of their
ticker, in their order, and among them every best feed; the other feeds are logged, each once. -/
theorem resolveCmcConflicts_keeps (c : Config) (feeds : List Feed) :
    ∃ kept log, resolveCmcConflicts c feeds = .ok (kept, log) ∧
      kept = feeds.filter
        (fun f ↦ (bestOf feeds f.tickerText).map (·.cmc.baseId) = some f.cmc.baseId) ∧
      (∀ f ∈ feeds, ∃ best ∈ kept, bestOf feeds f.tickerText = some best ∧
        best.tickerText = f.tickerText) ∧
      ∀ ticker, log.getD ticker [] = conflicting feeds ticker (bestOf feeds ticker) := by
  have hkept : (siftBy (fun f ↦ conflict? (reference feeds f) f) feeds).1 = feeds.filter
      (fun f ↦ (bestOf feeds f.tickerText).map (·.cmc.baseId) = some f.cmc.baseId) := by
    rw [siftBy_fst]
    exact List.filter_congr fun f hf ↦ conflict?_reference_isNone hf
  refine ⟨_, _, resolveCmcConflicts_eq feeds, hkept, fun f hf ↦ ?_, getD_conflicts feeds⟩
  obtain ⟨best, hbest⟩ := exists_bestOf hf
  obtain ⟨hmem, hticker⟩ := mem_of_bestOf hbest
  refine ⟨best, ?_, hbest, hticker⟩
  show best ∈ (siftBy (fun f ↦ conflict? (reference feeds f) f) feeds).1
  rw [hkept, List.mem_filter, hticker, hbest]
  exact ⟨hmem, decide_eq_true rfl⟩

/-! ## Wrapped assets -/

/-- The feeds of a ticker that `resolveAliases` keeps are about the same assets. -/
theorem assets_eq_of_resolveAliases {input : List Feed} {log : RemovalLog}
    (hrun : resolveAliases c input = .ok (feeds, log)) {f g : Feed} (hf : f ∈ feeds)
    (hg : g ∈ feeds) (hfg : f.tickerText = g.tickerText) : f.assets c = g.assets c := by
  obtain ⟨log', hkept⟩ := resolveAliases_kept (c := c) input
  rw [hkept] at hrun
  cases hrun
  have hf := of_decide_eq_true (List.mem_filter.1 hf).2
  have hg := of_decide_eq_true (List.mem_filter.1 hg).2
  rw [hfg, hg, Option.some.injEq, identityKey_eq, identityKey_eq] at hf
  exact (assetsText_injective hf).symm

/-- A feed is kept exactly if its base has the id of the base of the best feed of its ticker. -/
theorem mem_siftBy_conflict?_iff {f best : Feed} (hf : f ∈ feeds)
    (hbest : bestOf feeds f.tickerText = some best) :
    f ∈ (siftBy (fun f ↦ conflict? (reference feeds f) f) feeds).1 ↔
      f.cmc.baseId = best.cmc.baseId := by
  rw [mem_siftBy, conflict?_eq_none_iff, reference_eq hbest]
  exact and_iff_right hf

/-- A feed is kept exactly if its base has the id of the base of the best feed of its ticker.  So it
is about the asset of the best feed, also if wrapped assets are taken for what they stand for.  A
feed is dropped only if it is about another asset in that sense or one of the two bases is wrapped.
Of the feeds that `resolveAliases` keeps, all are about the asset of the best feed of their ticker,
and those with another id of their base are dropped all the same. -/
theorem resolveCmcConflicts_dropped (c : Config) (feeds : List Feed) :
    (∃ kept log, resolveCmcConflicts c feeds = .ok (kept, log) ∧
      ∀ f ∈ feeds, ∃ best, bestOf feeds f.tickerText = some best ∧
        (f ∈ kept ↔ f.cmc.baseId = best.cmc.baseId) ∧
        (f ∈ kept → c.resolveId f.cmc.baseId = c.resolveId best.cmc.baseId) ∧
        (f ∉ kept → c.resolveId f.cmc.baseId ≠ c.resolveId best.cmc.baseId ∨
          c.resolveId f.cmc.baseId ≠ f.cmc.baseId ∨
          c.resolveId best.cmc.baseId ≠ best.cmc.baseId)) ∧
      ∃ named log kept log', resolveAliases c feeds = .ok (named, log) ∧
        resolveCmcConflicts c named = .ok (kept, log') ∧
        ∀ f ∈ named, ∃ best, bestOf named f.tickerText = some best ∧
          c.resolveId f.cmc.baseId = c.resolveId best.cmc.baseId ∧
          (f ∉ kept ↔ f.cmc.baseId ≠ best.cmc.baseId) := by
  constructor
  · refine ⟨_, _, resolveCmcConflicts_eq feeds, fun f hf ↦ ?_⟩
    obtain ⟨best, hbest⟩ := exists_bestOf hf
    have hkept := mem_siftBy_conflict?_iff hf hbest
    refine ⟨best, hbest, hkept, fun h ↦ ?_, fun h ↦ ?_⟩
    · rw [hkept.1 h]
    · by_contra hsame
      push Not at hsame
      obtain ⟨hresolved, hbase, hreference⟩ := hsame
      rw [hbase, hreference] at hresolved
      exact h (hkept.2 hresolved)
  · obtain ⟨log, hrun⟩ := resolveAliases_kept (c := c) feeds
    refine ⟨_, log, _, _, hrun, resolveCmcConflicts_eq _, fun f hf ↦ ?_⟩
    obtain ⟨best, hbest⟩ := exists_bestOf hf
    obtain ⟨hmem, hticker⟩ := mem_of_bestOf hbest
    refine ⟨best, hbest, ?_, not_congr (mem_siftBy_conflict?_iff hf hbest)⟩
    exact congrArg Prod.fst (assets_eq_of_resolveAliases hrun hf hmem hticker.symm)

/-- Wrapped ether under the symbol of ether. -/
def wrappedEther : Feed :=
  { Feed.ofPrice ⟨"ETH", "USD"⟩ "okx" "WETHUSD" 1.0 with cmc := ⟨2396, 0, 40, 0⟩ }

def wrappedFeeds : List Feed :=
  [{ Feed.ofPrice ⟨"ETH", "USD"⟩ "kraken" "ETHUSD" 1.0 with cmc := ⟨1027, 0, 2, 0⟩ }, wrappedEther]

/-- A feed of a wrapped asset is dropped though `resolveAliases` keeps it and takes it to be about
the asset of the best feed of its ticker. -/
theorem exists_wrapped_dropped :
    ∃ input named log kept log' f best, resolveAliases .standard input = .ok (named, log) ∧
      resolveCmcConflicts .standard named = .ok (kept, log') ∧ f ∈ named ∧
      bestOf named f.tickerText = some best ∧
      Config.standard.resolveId f.cmc.baseId = Config.standard.resolveId best.cmc.baseId ∧
      f ∉ kept := by
  have hnamed : wrappedFeeds.filter (fun f ↦
      (winners .standard wrappedFeeds).getD f.tickerText none =
        some (identityKey .standard f)) = wrappedFeeds := by
    refine List.filter_eq_self.2 fun f hf ↦ ?_
    revert f
    decide +kernel
  obtain ⟨log, hrun⟩ := resolveAliases_kept (c := .standard) wrappedFeeds
  rw [hnamed] at hrun
  have hf : wrappedEther ∈ wrappedFeeds := List.mem_cons_of_mem _ (List.mem_singleton_self _)
  obtain ⟨best, hbest⟩ := exists_bestOf hf
  have hid : (bestOf wrappedFeeds wrappedEther.tickerText).map (·.cmc.baseId) = some 1027 := by
    decide +kernel
  rw [hbest, Option.map_some, Option.some.injEq] at hid
  refine ⟨wrappedFeeds, wrappedFeeds, log, _, _, wrappedEther, best, hrun,
    resolveCmcConflicts_eq _, hf, hbest, ?_, fun hkept ↦ ?_⟩
  · rw [hid]
    decide +kernel
  · have heq := (mem_siftBy_conflict?_iff hf hbest).1 hkept
    rw [hid] at heq
    exact absurd heq (by decide +kernel)

end OracleMarkets
