import OracleMarkets.Proofs.Least
import OracleMarkets.Proofs.Stage.Select

/-!
# As many feeds as a venue is allowed

`topFeeds` splits the feeds of every venue at the limit of the venue.  It keeps the best ones, as
many as the limit allows, and logs those that are surplus.  It fails only at a venue without
settings.  What it keeps of a venue depends on the limit and the feeds of that venue alone, so a
higher limit of one venue keeps all that was kept before.
-/

namespace OracleMarkets

variable {c : Config} {P : List Feed → Prop} {E : PipelineError → Prop}

open Stage (Meets)

/-! ## The feeds of one venue -/

section Venue

variable {limit : Nat} {group : List Feed}

/-- The best feeds of a venue, as many as the limit allows; all of them if it is zero. -/
def topOf (limit : Nat) (group : List Feed) : List Feed :=
  if limit = 0 ∨ group.length ≤ limit then group else (Feed.sortByRank group).take limit

/-- The feeds of a venue above the limit. -/
def restOf (limit : Nat) (group : List Feed) : List Feed :=
  if limit = 0 ∨ group.length ≤ limit then [] else (Feed.sortByRank group).drop limit

theorem topOf_append_restOf_perm (limit : Nat) (group : List Feed) :
    (topOf limit group ++ restOf limit group).Perm group := by
  rw [topOf, restOf]
  split
  · rw [List.append_nil]
  · rw [List.take_append_drop]
    exact Feed.sortByRank_perm group

theorem topOf_subperm (limit : Nat) (group : List Feed) : (topOf limit group).Subperm group :=
  (List.sublist_append_left _ _).subperm.trans (topOf_append_restOf_perm limit group).subperm

theorem restOf_subperm (limit : Nat) (group : List Feed) : (restOf limit group).Subperm group :=
  (List.sublist_append_right _ _).subperm.trans (topOf_append_restOf_perm limit group).subperm

theorem topOf_zero (group : List Feed) : topOf 0 group = group := if_pos (.inl rfl)

/-- As many feeds are kept as the limit allows and the venue has. -/
theorem length_topOf (h : limit ≠ 0) (group : List Feed) :
    (topOf limit group).length = min limit group.length := by
  rw [topOf]
  split
  · next hfits => exact (min_eq_right (hfits.resolve_left h)).symm
  · rw [List.length_take, (Feed.sortByRank_perm group).length_eq]

/-- A feed within the limit is as good as every feed above it. -/
theorem rankLe_of_mem_topOf {f g : Feed} (hf : f ∈ topOf limit group)
    (hg : g ∈ restOf limit group) : f.rankLe g = true := by
  rw [restOf] at hg
  split at hg
  · cases hg
  · next hmany =>
    rw [topOf, if_neg hmany] at hf
    have hsorted := Feed.pairwise_sortByRank group
    rw [← List.take_append_drop limit (Feed.sortByRank group)] at hsorted
    exact (List.pairwise_append.1 hsorted).2.2 f hf g hg

/-- A higher limit allows what a lower one allows. -/
theorem topOf_subperm_topOf {limit' : Nat} (h : limit ≠ 0) (hle : limit ≤ limit')
    (group : List Feed) : (topOf limit group).Subperm (topOf limit' group) := by
  by_cases hfits : group.length ≤ limit'
  · have hall : topOf limit' group = group := if_pos (.inr hfits)
    rw [hall]
    exact topOf_subperm limit group
  · have hmany : ¬(limit = 0 ∨ group.length ≤ limit) := by omega
    have hmany' : ¬(limit' = 0 ∨ group.length ≤ limit') := by omega
    rw [topOf, topOf, if_neg hmany, if_neg hmany']
    exact (List.take_prefix_take_left hle).sublist.subperm

end Venue

/-! ## The feeds of all venues -/

/-- How many feeds the settings of a venue allow; zero stands for any number. -/
def Config.topAmount (c : Config) (venue : String) : Nat :=
  ((c.provider? venue).map (·.filterTopAmount.toNat)).getD 0

theorem Config.topAmount_eq {venue : String} {s : ProviderSettings}
    (hs : c.provider? venue = some s) : c.topAmount venue = s.filterTopAmount.toNat := by
  rw [topAmount, hs, Option.map_some, Option.getD_some]

theorem toNat_filterTopAmount_ne_zero {s : ProviderSettings} (h : s.filterTopAmount ≠ 0) :
    s.filterTopAmount.toNat ≠ 0 := fun h0 ↦ h (UInt64.toNat_inj.1 h0)

/-- The feeds that the settings of their venues allow. -/
def allowed (c : Config) (feeds : List Feed) : List Feed :=
  (SortedMap.groupBy Feed.venue feeds).toList.flatMap fun e ↦ topOf (c.topAmount e.1) e.2

/-- The feeds above the limits of their venues. -/
def surplus (c : Config) (feeds : List Feed) : List Feed :=
  (SortedMap.groupBy Feed.venue feeds).toList.flatMap fun e ↦ restOf (c.topAmount e.1) e.2

def ofVenue (feeds : List Feed) (venue : String) : List Feed :=
  feeds.filter fun f ↦ f.venue = venue

theorem allowed_append_surplus_perm (c : Config) (feeds : List Feed) :
    (allowed c feeds ++ surplus c feeds).Perm feeds := by
  refine (List.flatMap_append_perm _ _ _).trans ?_
  refine .trans ?_ (SortedMap.flatten_values_groupBy_perm Feed.venue feeds)
  rw [SortedMap.values, ← List.flatMap_def]
  exact List.Perm.flatMap_left _ fun e _ ↦ topOf_append_restOf_perm (c.topAmount e.1) e.2

theorem allowed_subperm (c : Config) (feeds : List Feed) : (allowed c feeds).Subperm feeds :=
  flatMap_groupBy_subperm (fun venue ↦ topOf_subperm (c.topAmount venue)) feeds

/-- What is allowed of a venue depends on the feeds of this venue only. -/
theorem ofVenue_allowed (c : Config) (feeds : List Feed) (venue : String) :
    ofVenue (allowed c feeds) venue = topOf (c.topAmount venue) (ofVenue feeds venue) :=
  filter_flatMap_groupBy (fun venue ↦ topOf_subperm (c.topAmount venue)) feeds venue

theorem ofVenue_surplus (c : Config) (feeds : List Feed) (venue : String) :
    ofVenue (surplus c feeds) venue = restOf (c.topAmount venue) (ofVenue feeds venue) :=
  filter_flatMap_groupBy (fun venue ↦ restOf_subperm (c.topAmount venue)) feeds venue

/-- Where no limit is lowered, all that was allowed before is allowed. -/
theorem allowed_subperm_allowed {c' : Config}
    (h : ∀ venue, c'.topAmount venue = c.topAmount venue ∨
      c.topAmount venue ≠ 0 ∧ c.topAmount venue ≤ c'.topAmount venue) (feeds : List Feed) :
    (allowed c feeds).Subperm (allowed c' feeds) := by
  rw [allowed, allowed, List.flatMap_def, List.flatMap_def]
  refine flatten_subperm ?_
  rw [List.forall₂_map_left_iff, List.forall₂_map_right_iff, List.forall₂_same]
  intro e _
  rcases h e.1 with heq | ⟨hne, hle⟩
  · rw [heq]
  · exact topOf_subperm_topOf hne hle e.2

/-! ## The stage -/

/-- Why a feed above the limit of its venue is left out. -/
def surplusReason (limit : Nat) : String := s!"only selecting top {limit} feeds"

theorem splitTop_eq_ok {venue : String} (h : (c.provider? venue).isSome) (group : List Feed) :
    splitTop c venue group = .ok (topOf (c.topAmount venue) group,
      (restOf (c.topAmount venue) group).map fun f ↦ (f, surplusReason (c.topAmount venue))) := by
  obtain ⟨s, hs⟩ := Option.isSome_iff_exists.1 h
  rw [splitTop, hs, Config.topAmount_eq hs, topOf, restOf]
  dsimp only
  split <;> rfl

/-- If the venues have settings, the feeds that these allow are kept and those above a limit are
logged. -/
theorem topFeeds_eq_ok {feeds : List Feed} (h : ∀ f ∈ feeds, (c.provider? f.venue).isSome) :
    topFeeds c feeds = .ok (Feed.sortCanonical (allowed c feeds),
      ((surplus c feeds).map fun f ↦ (f, surplusReason (c.topAmount f.venue))).foldl
        (fun log r ↦ RemovalLog.recordFeed log r.1 r.2) ∅) := by
  have hsplit : ∀ e ∈ (SortedMap.groupBy Feed.venue feeds).toList,
      splitTop c e.1 e.2 = .ok (topOf (c.topAmount e.1) e.2,
        (restOf (c.topAmount e.1) e.2).map fun f ↦ (f, surplusReason (c.topAmount f.venue))) := by
    intro e he
    have hvenue : ∀ f ∈ e.2, f.venue = e.1 := fun f hf ↦ SortedMap.key_of_mem_groupBy he hf
    have hconfigured : (c.provider? e.1).isSome := by
      obtain ⟨f, hf⟩ := List.exists_mem_of_ne_nil _ (SortedMap.mem_toList_groupBy.1 he).2
      rw [← hvenue f hf]
      exact h f (SortedMap.mem_iff_mem_groupBy.2 ⟨e, he, hf⟩)
    rw [splitTop_eq_ok hconfigured]
    refine congrArg (fun r ↦ Except.ok (_, r)) (List.map_congr_left fun f hf ↦ ?_)
    rw [hvenue f ((restOf_subperm _ _).subset hf)]
  rw [topFeeds, mapM_eq_ok_map hsplit, surplus, List.map_flatMap]
  simp only [bind, Except.bind, List.flatMap_map]
  rfl

theorem exists_topFeeds_eq_ok {feeds : List Feed}
    (h : ∀ f ∈ feeds, (c.provider? f.venue).isSome) :
    ∃ log, topFeeds c feeds = .ok (Feed.sortCanonical (allowed c feeds), log) ∧
      log.snapshots.Perm (surplus c feeds) := by
  refine ⟨_, topFeeds_eq_ok h, (DropLog.snapshots_foldl_recordFeed_perm _ ∅).trans (.of_eq ?_)⟩
  rw [DropLog.snapshots_empty, List.nil_append, List.map_map]
  exact List.map_id _

/-- The stage succeeds only if the venues have settings. -/
theorem configured_of_topFeeds {feeds : List Feed} {out : List Feed × RemovalLog}
    (hrun : topFeeds c feeds = .ok out) : ∀ f ∈ feeds, (c.provider? f.venue).isSome := by
  intro f hf
  obtain ⟨splits, hsplits, -⟩ := bind_eq_ok.1 hrun
  have hgroup : ∃ e ∈ (SortedMap.groupBy Feed.venue feeds).toList, f ∈ e.2 :=
    SortedMap.mem_iff_mem_groupBy.1 hf
  obtain ⟨e, he, hfe⟩ := hgroup
  obtain ⟨split, -, hsplit⟩ := exists_result_of_mapM hsplits he
  rw [SortedMap.key_of_mem_groupBy he hfe]
  cases hs : c.provider? e.1 with
  | some s => rfl
  | none =>
    rw [splitTop, hs] at hsplit
    cases hsplit

/-! ## What the stage guarantees -/

/-- No venue with a limit has more feeds than that. -/
def FitsLimits (c : Config) (feeds : List Feed) : Prop :=
  ∀ venue s, c.provider? venue = some s → s.filterTopAmount ≠ 0 →
    (feeds.filter fun f ↦ f.venue = venue).length ≤ s.filterTopAmount.toNat

theorem inherited_fitsLimits : Inherited (FitsLimits c) :=
  fun _ _ h hm venue s hs hlimit ↦ (h.filter _).length_le.trans (hm venue s hs hlimit)

/-- What the settings allow fits their limits. -/
theorem fitsLimits_allowed (c : Config) (feeds : List Feed) : FitsLimits c (allowed c feeds) := by
  intro venue s hs hlimit
  show (ofVenue (allowed c feeds) venue).length ≤ s.filterTopAmount.toNat
  rw [ofVenue_allowed, Config.topAmount_eq hs, length_topOf (toNat_filterTopAmount_ne_zero hlimit)]
  exact min_le_left _ _

theorem topFeeds_meets (hP : Inherited P)
    (hv : ∀ feeds, P feeds → ∀ f ∈ feeds, (c.provider? f.venue).isSome) :
    Meets c topFeeds P
      (fun feeds ↦ P feeds ∧ FitsLimits c feeds ∧
        feeds.Pairwise fun f g ↦ f.canonicalLe g = true) E := by
  refine .of_ok fun feeds h ↦ ⟨_, _, topFeeds_eq_ok (hv feeds h), ?_, ?_, ?_⟩
  · exact hP ((Feed.sortCanonical_perm _).subperm.trans (allowed_subperm c feeds)) h
  · exact inherited_fitsLimits (Feed.sortCanonical_perm _).subperm (fitsLimits_allowed c feeds)
  · exact Feed.pairwise_sortCanonical _

/-- New settings of one venue take away the settings of none. -/
theorem Config.isSome_provider?_insert (venue : String) (s : ProviderSettings) {other : String}
    (h : (c.provider? other).isSome) :
    (Config.provider? { c with providers := c.providers.insert venue s } other).isSome := by
  rw [provider?, SortedMap.get?_insert]
  split
  · rfl
  · exact h

/-- If one limit is raised, no feed that was kept is left out. -/
theorem allowed_subperm_of_raised {venue : String} {s : ProviderSettings} {n : UInt64}
    (hs : c.provider? venue = some s) (hlimit : s.filterTopAmount ≠ 0) (hn : s.filterTopAmount ≤ n)
    (feeds : List Feed) :
    (allowed c feeds).Subperm (allowed
      { c with providers := c.providers.insert venue { s with filterTopAmount := n } } feeds) := by
  refine allowed_subperm_allowed (fun other ↦ ?_) feeds
  by_cases hother : other = venue
  · subst hother
    right
    rw [Config.topAmount_eq hs]
    refine ⟨toNat_filterTopAmount_ne_zero hlimit, ?_⟩
    rw [Config.topAmount, Config.provider?, SortedMap.get?_insert, if_pos rfl]
    exact UInt64.le_iff_toNat_le.1 hn
  · left
    rw [Config.topAmount, Config.topAmount, Config.provider?, SortedMap.get?_insert, if_neg hother,
      Config.provider?]

/-- If the venues of the feeds have settings, the stage does not fail.  Of a venue with a limit it
keeps as many feeds as the limit allows, none of them worse than a feed of the venue that it leaves
out, and of a venue without one it keeps all feeds.  Every feed is kept or logged, once, and what is
kept is in canonical order.  If the limit of one venue is raised, nothing that was kept is left
out. -/
theorem topFeeds_keeps_best (c : Config) (feeds : List Feed)
    (h : ∀ f ∈ feeds, (c.provider? f.venue).isSome) :
    ∃ kept log, topFeeds c feeds = .ok (kept, log) ∧
      (∀ venue s, c.provider? venue = some s → s.filterTopAmount ≠ 0 →
        (ofVenue kept venue).length = min s.filterTopAmount.toNat (ofVenue feeds venue).length ∧
        ∀ f ∈ ofVenue kept venue, ∀ g ∈ ofVenue log.snapshots venue, f.isBeatenBy g = false) ∧
      (∀ venue s, c.provider? venue = some s → s.filterTopAmount = 0 →
        (ofVenue kept venue).Perm (ofVenue feeds venue)) ∧
      (kept ++ log.snapshots).Perm feeds ∧
      (kept.Pairwise fun f g ↦ f.canonicalLe g = true) ∧
      ∀ venue s n, c.provider? venue = some s → s.filterTopAmount ≠ 0 → s.filterTopAmount ≤ n →
        ∃ kept' log', topFeeds
            { c with providers := c.providers.insert venue { s with filterTopAmount := n } } feeds =
              .ok (kept', log') ∧
          kept.Subperm kept' := by
  obtain ⟨log, hrun, hlog⟩ := exists_topFeeds_eq_ok h
  have hsort := Feed.sortCanonical_perm (allowed c feeds)
  have hkept : ∀ venue, (ofVenue (Feed.sortCanonical (allowed c feeds)) venue).Perm
      (topOf (c.topAmount venue) (ofVenue feeds venue)) := by
    intro venue
    rw [← ofVenue_allowed]
    exact hsort.filter _
  have hrest : ∀ venue, (ofVenue log.snapshots venue).Perm
      (restOf (c.topAmount venue) (ofVenue feeds venue)) := by
    intro venue
    rw [← ofVenue_surplus]
    exact hlog.filter _
  refine ⟨_, log, hrun, ?limited, ?unlimited, ?accounted, Feed.pairwise_sortCanonical _, ?raised⟩
  case limited =>
    intro venue s hs hlimit
    constructor
    · rw [(hkept venue).length_eq, Config.topAmount_eq hs,
        length_topOf (toNat_filterTopAmount_ne_zero hlimit)]
    · intro f hf g hg
      have hle := rankLe_of_mem_topOf ((hkept venue).mem_iff.1 hf) ((hrest venue).mem_iff.1 hg)
      rw [← Bool.not_eq_true', Feed.not_isBeatenBy]
      exact hle
  case unlimited =>
    intro venue s hs hlimit
    have hall := hkept venue
    rwa [Config.topAmount_eq hs, hlimit, UInt64.toNat_zero, topOf_zero] at hall
  case accounted => exact (hsort.append hlog).trans (allowed_append_surplus_perm c feeds)
  case raised =>
    intro venue s n hs hlimit hn
    obtain ⟨log', hrun', -⟩ := exists_topFeeds_eq_ok fun f hf ↦
      Config.isSome_provider?_insert venue { s with filterTopAmount := n } (h f hf)
    refine ⟨_, log', hrun', hsort.subperm.trans ?_⟩
    exact (allowed_subperm_of_raised hs hlimit hn feeds).trans
      (Feed.sortCanonical_perm _).symm.subperm

/-- The settings of a venue of which one feed is kept. -/
def narrowCex : ProviderSettings := { filterTopAmount := 1 }

/-- A configuration of a venue with a limit and one without, with the standard quotes. -/
def Config.narrow : Config :=
  { standard with providers := .ofList [("kraken", narrowCex), ("okx", standardCex)] }

/-- Three feeds of the venue with a limit, the last one the best, and two of the other. -/
def rankedFeeds : List Feed :=
  [{ Feed.ofPrice ⟨"ETH", "USD"⟩ "kraken" "ETHUSD" 2.0 with cmc := ⟨1027, 0, 2, 0⟩ },
    Feed.ofPrice ⟨"DUST", "USD"⟩ "kraken" "DUSTUSD" 1.0,
    { Feed.ofPrice ⟨"BTC", "USD"⟩ "kraken" "BTCUSD" 3.0 with cmc := ⟨1, 0, 1, 0⟩ },
    { Feed.ofPrice ⟨"ETH", "USD"⟩ "okx" "ETH-USD" 2.0 with cmc := ⟨1027, 0, 2, 0⟩ },
    { Feed.ofPrice ⟨"BTC", "USD"⟩ "okx" "BTC-USD" 3.0 with cmc := ⟨1, 0, 1, 0⟩ }]

/-- The best of three feeds is kept, and all feeds of the venue without a limit; a higher limit
keeps more. -/
theorem topFeeds_keeps_best_ranked :
    ∃ kept log kept' log', topFeeds .narrow rankedFeeds = .ok (kept, log) ∧
      (ofVenue kept "kraken").length = 1 ∧
      (∀ f ∈ ofVenue kept "kraken", ∀ g ∈ ofVenue log.snapshots "kraken",
        f.isBeatenBy g = false) ∧
      (ofVenue kept "okx").Perm (ofVenue rankedFeeds "okx") ∧
      (kept ++ log.snapshots).Perm rankedFeeds ∧
      topFeeds { Config.narrow with providers :=
            Config.narrow.providers.insert "kraken" { narrowCex with filterTopAmount := 2 } }
          rankedFeeds = .ok (kept', log') ∧
      kept.Subperm kept' := by
  have hkraken : Config.narrow.provider? "kraken" = some narrowCex := rfl
  have hokx : Config.narrow.provider? "okx" = some Config.standardCex := rfl
  have hlimit : narrowCex.filterTopAmount ≠ 0 := by decide
  have hraise : narrowCex.filterTopAmount ≤ 2 := by decide
  obtain ⟨kept, log, hrun, hlimited, hunlimited, haccounted, -, hraised⟩ :=
    topFeeds_keeps_best .narrow rankedFeeds (by decide +kernel)
  obtain ⟨hlength, hbest⟩ := hlimited "kraken" narrowCex hkraken hlimit
  obtain ⟨kept', log', hrun', hkept⟩ := hraised "kraken" narrowCex 2 hkraken hlimit hraise
  exact ⟨kept, log, kept', log', hrun, hlength, hbest,
    hunlimited "okx" Config.standardCex hokx rfl, haccounted, hrun', hkept⟩

end OracleMarkets
