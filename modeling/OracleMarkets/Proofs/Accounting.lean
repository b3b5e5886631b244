import OracleMarkets.Proofs.Pruning
import OracleMarkets.Proofs.Stage.Winners

/-!
# Where feeds go

Every feed that comes to the chain comes out of it or is in its log of removals, once, but for two
kinds of feeds that are left out without a record: feeds of a ticker that stands for no asset with a
rank, and feeds that lose against another feed of their ticker and venue.  Stages restate feeds, so
a feed is followed by its venue and the venue's own name of the pair, which no stage changes.
-/

namespace OracleMarkets

variable {c : Config}

/-- What tells a feed apart while it is restated: its venue and off-chain ticker. -/
def Feed.origin (f : Feed) : String × String := (f.venue, f.provider.offChainTicker)

/-- The feeds of a list are those that are kept, those that are logged, and those that are left out
silently. -/
structure Accounted (input kept : List Feed) (log : RemovalLog) (silent : List Feed) : Prop where
  /-- Every origin occurs among the feeds as often as in the three parts together. -/
  perm : (input.map Feed.origin).Perm
    (kept.map Feed.origin ++ log.snapshots.map Feed.origin ++ silent.map Feed.origin)

namespace Accounted

variable {input mid kept silent more : List Feed} {log log' : RemovalLog}

theorem of_perm (h : input.Perm (kept ++ log.snapshots ++ silent)) :
    Accounted input kept log silent := by
  constructor
  rw [← List.map_append, ← List.map_append]
  exact h.map _

/-- What is kept by a first step is accounted for by the next. -/
theorem trans (h : Accounted input mid log silent) (h' : Accounted mid kept log' more) :
    Accounted input kept (log.merge log') (silent ++ more) := by
  constructor
  rw [List.perm_iff_count]
  intro o
  have hinput := h.perm.count_eq o
  have hmid := h'.perm.count_eq o
  have hmerge := ((DropLog.snapshots_merge_perm log log').map Feed.origin).count_eq o
  simp only [List.map_append, List.count_append] at *
  omega

/-- The log, what is kept and what is left out silently count as many feeds as there were. -/
theorem length_eq (h : Accounted input kept log silent) :
    log.count + kept.length + silent.length = input.length := by
  have hlength := h.perm.length_eq
  simp only [List.length_append, List.length_map] at hlength
  rw [DropLog.count_eq_length_snapshots, hlength]
  omega

end Accounted

/-! ## Stages that log what they leave out -/

namespace Stage

/-- Every feed that comes to the stage comes out of it or is logged. -/
def Logs (c : Config) (stage : FeedStage) : Prop :=
  ∀ ⦃input kept log⦄, stage c input = .ok (kept, log) → Accounted input kept log []

/-- A chain of stages that log what they leave out does so. -/
theorem logs_chain {stages : List FeedStage} (h : ∀ stage ∈ stages, Logs c stage) :
    Logs c (chain stages) := by
  induction stages with
  | nil =>
    intro input kept log hrun
    cases hrun
    exact .of_perm (by simp)
  | cons stage rest ih =>
    obtain ⟨hstage, hrest⟩ := List.forall_mem_cons.1 h
    intro input kept log hrun
    obtain ⟨mid, first, more, hmid, hkept, rfl⟩ := chain_cons_eq_ok.1 hrun
    exact (hstage hmid).trans (ih hrest hkept)

/-- Sifted feeds are kept or logged. -/
theorem sift_perm (judged : List (Feed × Option String)) :
    (judged.map (·.1)).Perm ((sift judged).1 ++ (sift judged).2.snapshots) := by
  have hlogged : (judged.filterMap fun j ↦ j.2.map (j.1, ·)).map (·.1) =
      (judged.filter fun j ↦ !j.2.isNone).map (·.1) := by
    rw [List.map_filterMap, ← List.filterMap_eq_map, ← List.filterMap_eq_filter,
      List.filterMap_filterMap]
    refine List.filterMap_congr fun j _ ↦ ?_
    obtain ⟨f, reason⟩ := j
    cases reason <;> rfl
  have hsplit := (List.filter_append_perm (fun j : Feed × Option String ↦ j.2.isNone) judged).symm
  refine (hsplit.map (·.1)).trans ?_
  rw [List.map_append, sift_snd, ← hlogged]
  exact (DropLog.snapshots_foldl_recordFeed_perm _ ∅).symm.append_left _

/-- A stage that sifts feeds and changes at most what they say logs what it leaves out. -/
theorem logs_of_sift {stage : FeedStage}
    (h : ∀ feeds, ∃ judge : Feed → Feed × Option String,
      (∀ f, (judge f).1.origin = f.origin) ∧ stage c feeds = .ok (sift (feeds.map judge))) :
    Logs c stage := by
  intro input kept log hrun
  obtain ⟨judge, horigin, hjudge⟩ := h input
  rw [hjudge] at hrun
  cases hrun
  have hmap : ((input.map judge).map (·.1)).map Feed.origin = input.map Feed.origin := by
    rw [List.map_map, List.map_map]
    exact List.map_congr_left fun f _ ↦ horigin f
  constructor
  rw [← hmap, List.map_nil, List.append_nil, ← List.map_append]
  exact (sift_perm (input.map judge)).map Feed.origin

/-- A stage that leaves out the feeds to which a verdict gives a reason logs them. -/
theorem logs_of_siftBy {stage : FeedStage}
    (h : ∀ feeds, ∃ verdict, stage c feeds = .ok (siftBy verdict feeds)) : Logs c stage := by
  refine logs_of_sift fun feeds ↦ ?_
  obtain ⟨verdict, hrun⟩ := h feeds
  exact ⟨fun f ↦ (f, verdict f), fun _ ↦ rfl, hrun⟩

end Stage

open Stage (Logs)

theorem origin_judgeRestated (f : Feed) : (judgeRestated c f).1.origin = f.origin := by
  unfold judgeRestated
  split
  · rfl
  · next h hr =>
    have horigin : h.origin = f.origin := by
      rcases restate?_cases hr with ⟨-, rfl⟩ | ⟨-, -, rfl⟩
      · rfl
      · rfl
    dsimp only
    split
    · exact horigin
    · exact horigin

/-- The first five stages log every feed that they leave out. -/
theorem logs_pruningStages : Logs c (Stage.chain pruningStages) := by
  refine Stage.logs_chain fun stage hstage ↦ ?_
  simp only [pruningStages, feedStages, List.take, List.map, List.mem_cons, List.not_mem_nil,
    or_false] at hstage
  rcases hstage with rfl | rfl | rfl | rfl | rfl
  · exact Stage.logs_of_sift fun _ ↦ ⟨_, origin_judgeRestated, rfl⟩
  · exact Stage.logs_of_siftBy fun _ ↦ ⟨_, rfl⟩
  · exact Stage.logs_of_siftBy fun _ ↦ ⟨_, rfl⟩
  · exact Stage.logs_of_siftBy fun _ ↦ ⟨_, rfl⟩
  · exact Stage.logs_of_siftBy fun _ ↦ ⟨_, rfl⟩

theorem RequotesTo.origin_eq {h f : Feed} (hf : RequotesTo c h f) : f.origin = h.origin := by
  cases hf with
  | same => rfl
  | @rescaled n price => simp only [Feed.origin, Feed.venue, Feed.rescale]

/-- Normalizing leaves out no feed. -/
theorem logs_normalize : Logs c normalize := by
  intro input kept log hrun
  obtain ⟨kept', hm, hrun⟩ := bind_eq_ok.1 hrun
  cases hrun
  have hrequoted : List.Forall₂ (RequotesTo c) input kept :=
    (mapM_eq_ok_iff.1 hm).imp fun _ _ ↦ requotesTo_of_normalizeFeed
  have horigins : kept.map Feed.origin = input.map Feed.origin := by
    clear hrun hm
    induction hrequoted with
    | nil => rfl
    | cons hf _ ih => rw [List.map_cons, List.map_cons, hf.origin_eq, ih]
  constructor
  rw [horigins]
  simp

theorem logs_dropFeedsWithoutIds : Logs c dropFeedsWithoutIds :=
  Stage.logs_of_siftBy fun _ ↦ ⟨_, rfl⟩

theorem logs_resolveCmcConflicts : Logs c resolveCmcConflicts :=
  Stage.logs_of_siftBy fun feeds ↦ ⟨_, resolveCmcConflicts_eq feeds⟩

/-! ## Tickers without a ranked asset -/

/-- Whether the base of some feed of the ticker has a rank. -/
def hasRankedBase (feeds : List Feed) (ticker : String) : Bool :=
  feeds.any fun f ↦ f.tickerText = ticker ∧ effectiveRank f.cmc.baseRank ≠ unranked

/-- The feeds of tickers that stand for no asset with a rank. -/
def unidentified (feeds : List Feed) : List Feed :=
  feeds.filter fun f ↦ !hasRankedBase feeds f.tickerText

/-- A ticker stands for no pair of assets exactly if none of its feeds has a base with a rank. -/
theorem winners_isNone (feeds : List Feed) (ticker : String) :
    ((winners c feeds).getD ticker none).isNone = !hasRankedBase feeds ticker := by
  rw [getD_winners, Bool.eq_iff_iff, Option.isNone_iff_eq_none, winner?_eq_none_iff,
    Bool.not_eq_true', hasRankedBase, List.any_eq_false]
  constructor
  · intro h f hf hranked
    obtain ⟨hticker, hrank⟩ := of_decide_eq_true hranked
    exact h (f.assets c) ⟨f, mem_feedsAbout.2 ⟨hf, hticker, rfl⟩, lt_unranked_iff.2 hrank⟩
  · rintro h a ⟨f, hf, hrank⟩
    obtain ⟨hf, hticker, -⟩ := mem_feedsAbout.1 hf
    exact h f hf (decide_eq_true ⟨hticker, lt_unranked_iff.1 hrank⟩)

/-- The stage logs what it leaves out, but for the feeds of tickers without a ranked asset. -/
theorem accounted_resolveAliases {feeds kept : List Feed} {log : RemovalLog}
    (hrun : resolveAliases c feeds = .ok (kept, log)) :
    Accounted feeds kept log (unidentified feeds) := by
  have hsilent : unidentified feeds =
      feeds.filter fun f ↦ !((winners c feeds).getD f.tickerText none).isSome := by
    refine List.filter_congr fun f _ ↦ ?_
    rw [← winners_isNone (c := c), Option.not_isSome]
  cases hrun
  refine .of_perm ?_
  rw [hsilent]
  refine (List.filter_append_perm _ feeds).symm.trans (List.Perm.append_right _ ?_)
  refine .trans (.of_eq ?_) (Stage.sift_perm _)
  rw [List.map_filterMap, ← List.filterMap_eq_filter]
  refine List.filterMap_congr fun f _ ↦ ?_
  cases hw : (winners c feeds).getD f.tickerText none <;> simp [Option.guard, hw]

/-! ## Feeds that lose against another -/

/-- `best` is as good as `f` or better, and of the same ticker and venue. -/
structure Feed.Beats (best f : Feed) : Prop where
  ticker_eq : best.tickerText = f.tickerText
  venue_eq : best.venue = f.venue
  /-- `best` is as good as `f` or better. -/
  rankLe : best.rankLe f = true

/-- The feeds are those that are chosen and those that are discarded, each of these in favour of a
chosen one. -/
structure Outdone (feeds chosen discarded : List Feed) : Prop where
  perm : feeds.Perm (chosen ++ discarded)
  beaten : ∀ f ∈ discarded, ∃ best ∈ chosen, best.Beats f

/-- The best feed of a group is as good as any of the others. -/
theorem exists_rest_of_bestFeed? {group : List Feed} {best : Feed}
    (h : bestFeed? group = some best) :
    ∃ rest, group.Perm (best :: rest) ∧ ∀ f ∈ rest, best.rankLe f = true := by
  obtain ⟨before, after, hgroup, -, -⟩ := isFirstLeast_of_bestFeed? h
  have hperm : group.Perm (best :: (before ++ after)) := hgroup ▸ List.perm_middle
  refine ⟨before ++ after, hperm, fun f hf ↦ ?_⟩
  exact (isFirstLeast_of_bestFeed? h).isLE (hperm.mem_iff.2 (List.mem_cons_of_mem best hf))

namespace Outdone

variable {feeds feeds' chosen chosen' discarded : List Feed}

/-- The order of the feeds does not matter. -/
theorem of_perm (h : Outdone feeds chosen discarded) (hfeeds : feeds'.Perm feeds)
    (hchosen : chosen'.Perm chosen) : Outdone feeds' chosen' discarded where
  perm := hfeeds.trans (h.perm.trans (hchosen.symm.append_right discarded))
  beaten f hf := by
    obtain ⟨best, hbest, hbeats⟩ := h.beaten f hf
    exact ⟨best, hchosen.mem_iff.2 hbest, hbeats⟩

/-- What is chosen from each part is chosen from all parts together. -/
theorem flatMap {α : Type} {parts : List α} {whole pick : α → List Feed}
    (h : ∀ a ∈ parts, ∃ discarded, Outdone (whole a) (pick a) discarded) :
    ∃ discarded, Outdone (parts.flatMap whole) (parts.flatMap pick) discarded := by
  induction parts with
  | nil => exact ⟨[], .refl _, List.forall_mem_nil _⟩
  | cons a parts ih =>
    obtain ⟨hhead, htail⟩ := List.forall_mem_cons.1 h
    obtain ⟨first, hfirst⟩ := hhead
    obtain ⟨more, hmore⟩ := ih htail
    refine ⟨first ++ more, ?_, fun f hf ↦ ?_⟩
    · rw [List.flatMap_cons, List.flatMap_cons, List.append_assoc]
      refine (hfirst.perm.append hmore.perm).trans ?_
      rw [List.append_assoc]
      exact (List.perm_append_comm_assoc first (parts.flatMap pick) more).append_left (pick a)
    · rw [List.flatMap_cons]
      rcases List.mem_append.1 hf with hf | hf
      · obtain ⟨best, hbest, hbeats⟩ := hfirst.beaten f hf
        exact ⟨best, List.mem_append_left _ hbest, hbeats⟩
      · obtain ⟨best, hbest, hbeats⟩ := hmore.beaten f hf
        exact ⟨best, List.mem_append_right _ hbest, hbeats⟩

/-- What is chosen from each group of a key is chosen from all feeds. -/
theorem groupBy {key : Feed → String} {pick : List Feed → List Feed}
    (h : ∀ e ∈ (SortedMap.groupBy key feeds).toList,
      ∃ discarded, Outdone e.2 (pick e.2) discarded) :
    ∃ discarded, Outdone feeds ((SortedMap.groupBy key feeds).values.flatMap pick) discarded := by
  obtain ⟨discarded, hall⟩ := flatMap h
  have hfeeds := (SortedMap.flatten_values_groupBy_perm key feeds).symm
  rw [SortedMap.values, ← List.flatMap_def] at hfeeds
  refine ⟨discarded, hall.of_perm hfeeds ?_⟩
  rw [SortedMap.values, List.flatMap_map]

end Outdone

/-- Of a group of one ticker and one venue the best feed is chosen. -/
theorem outdone_bestFeed? {group : List Feed} {ticker venue : String}
    (hticker : ∀ f ∈ group, f.tickerText = ticker) (hvenue : ∀ f ∈ group, f.venue = venue) :
    ∃ discarded, Outdone group (bestFeed? group).toList discarded := by
  cases hb : bestFeed? group with
  | none =>
    cases group with
    | nil => exact ⟨[], .refl _, List.forall_mem_nil _⟩
    | cons f group => cases hb
  | some best =>
    have hbest := mem_of_bestFeed? hb
    obtain ⟨rest, hperm, hle⟩ := exists_rest_of_bestFeed? hb
    refine ⟨rest, hperm, fun f hf ↦ ⟨best, List.mem_singleton_self best, ?_⟩⟩
    have hmem : f ∈ group := hperm.mem_iff.2 (List.mem_cons_of_mem best hf)
    exact ⟨by rw [hticker best hbest, hticker f hmem], by rw [hvenue best hbest, hvenue f hmem],
      hle f hf⟩

/-- The stage discards the feeds that lose against another feed of their ticker and venue, and no
others. -/
theorem outdone_resolveProviderConflicts {feeds chosen : List Feed} {log : RemovalLog}
    (hrun : resolveProviderConflicts c feeds = .ok (chosen, log)) :
    log = ∅ ∧ ∃ discarded, Outdone feeds chosen discarded := by
  rw [resolveProviderConflicts_eq] at hrun
  cases hrun
  refine ⟨rfl, ?_⟩
  have hgroup : ∀ e ∈ (SortedMap.groupBy Feed.tickerText feeds).toList,
      ∃ discarded, Outdone e.2 (bestByVenue e.2) discarded := by
    intro e he
    rw [bestByVenue, List.filterMap_eq_flatMap_toList]
    refine Outdone.groupBy fun e' he' ↦ ?_
    have hticker : ∀ f ∈ e'.2, f.tickerText = e.1 := fun f hf ↦
      SortedMap.key_of_mem_groupBy he (SortedMap.mem_iff_mem_groupBy.2 ⟨e', he', hf⟩)
    exact outdone_bestFeed? hticker fun f hf ↦ SortedMap.key_of_mem_groupBy he' hf
  obtain ⟨discarded, hall⟩ := Outdone.groupBy hgroup
  exact ⟨discarded, hall.of_perm (.refl _) (Feed.sortCanonical_perm _)⟩

/-! ## Feeds above the limit of their venue -/

theorem logs_topFeeds : Logs c topFeeds := by
  intro input kept log hrun
  obtain ⟨log', hrun', hlog⟩ := exists_topFeeds_eq_ok (configured_of_topFeeds hrun)
  rw [hrun'] at hrun
  cases hrun
  refine .of_perm ?_
  rw [List.append_nil]
  exact (allowed_append_surplus_perm c input).symm.trans
    ((Feed.sortCanonical_perm _).symm.append hlog.symm)

/-! ## The chain -/

/-- The three stages after the aliases log every feed that they leave out. -/
theorem logs_stagesAfterAliases :
    Logs c (Stage.chain [normalize, dropFeedsWithoutIds, resolveCmcConflicts]) := by
  refine Stage.logs_chain fun stage hstage ↦ ?_
  simp only [List.mem_cons, List.not_mem_nil, or_false] at hstage
  rcases hstage with rfl | rfl | rfl
  · exact logs_normalize
  · exact logs_dropFeedsWithoutIds
  · exact logs_resolveCmcConflicts

/-- Whenever the standard chain gives feeds, the feeds that came to it are those that it keeps,
those in its log, the feeds `unidentified named` of tickers without a ranked asset, and the feeds
`discarded` that lose against a feed of their ticker and venue.  Here `named` are the feeds that
come to `resolveAliases`, and `rivals` those that come to `resolveProviderConflicts`. -/
theorem standardFeedChain_accounts {input kept : List Feed} {removals : RemovalLog}
    (hrun : standardFeedChain c input = .ok (kept, removals)) :
    ∃ named rivals chosen discarded,
      (∃ log, Stage.chain ((feedStages.take 5).map (·.2)) c input = .ok (named, log)) ∧
      (∃ log, Stage.chain ((feedStages.take 9).map (·.2)) c input = .ok (rivals, log)) ∧
      resolveProviderConflicts c rivals = .ok (chosen, ∅) ∧
      Outdone rivals chosen discarded ∧
      (input.map Feed.origin).Perm (kept.map Feed.origin ++ removals.snapshots.map Feed.origin ++
        ((unidentified named).map Feed.origin ++ discarded.map Feed.origin)) ∧
      removals.count + kept.length + ((unidentified named).length + discarded.length) =
        input.length := by
  have hsplit : standardFeedChain = Stage.chain (pruningStages ++ resolveAliases ::
      ([normalize, dropFeedsWithoutIds, resolveCmcConflicts] ++
        [resolveProviderConflicts, topFeeds])) := rfl
  rw [hsplit] at hrun
  obtain ⟨named, log₁, rest₁, hnamed, hrest₁, rfl⟩ := Stage.chain_append_eq_ok.1 hrun
  obtain ⟨aliased, log₂, rest₂, haliased, hrest₂, rfl⟩ := Stage.chain_cons_eq_ok.1 hrest₁
  obtain ⟨rivals, log₃, rest₃, hrivals, hrest₃, rfl⟩ := Stage.chain_append_eq_ok.1 hrest₂
  obtain ⟨chosen, log₄, rest₄, hchosen, hrest₄, rfl⟩ := Stage.chain_cons_eq_ok.1 hrest₃
  obtain ⟨rfl, discarded, hdiscarded⟩ := outdone_resolveProviderConflicts hchosen
  have hnine : ∃ log, Stage.chain ((feedStages.take 9).map (·.2)) c input = .ok (rivals, log) := by
    have htake : (feedStages.take 9).map (·.2) = pruningStages ++ resolveAliases ::
        [normalize, dropFeedsWithoutIds, resolveCmcConflicts] := rfl
    rw [htake]
    exact ⟨_, Stage.chain_append_eq_ok.2
      ⟨_, _, _, hnamed, Stage.chain_cons_eq_ok.2 ⟨_, _, _, haliased, hrivals, rfl⟩, rfl⟩⟩
  have hlast : Logs c (Stage.chain [topFeeds]) :=
    Stage.logs_chain (List.forall_mem_singleton.2 logs_topFeeds)
  have hdiscard : Accounted rivals chosen ∅ discarded := .of_perm (by simpa using hdiscarded.perm)
  have hall := (logs_pruningStages hnamed).trans ((accounted_resolveAliases haliased).trans
    ((logs_stagesAfterAliases hrivals).trans (hdiscard.trans (hlast hrest₄))))
  simp only [List.nil_append, List.append_nil] at hall
  refine ⟨named, rivals, chosen, discarded, ⟨log₁, hnamed⟩, hnine, hchosen, hdiscarded, ?_, ?_⟩
  · simpa only [List.map_append] using hall.perm
  · simpa only [List.length_append] using hall.length_eq

/-- Besides the small feeds, one of a venue without settings, a second one of a ticker and venue,
and one of an asset without a rank. -/
def crowdedFeeds : List Feed :=
  smallFeeds ++
    [{ Feed.ofPrice ⟨"USDT", "USD"⟩ "elsewhere" "USDTUSD" 3.0 with cmc := ⟨825, 0, 1, 0⟩ },
      { Feed.ofPrice ⟨"USDT", "USD"⟩ "kraken" "USDT2USD" 1.0 with cmc := ⟨825, 0, 3, 0⟩ },
      Feed.ofPrice ⟨"DUST", "USD"⟩ "kraken" "DUSTUSD" 1.0]

theorem standardFeedChain_crowdedFeeds :
    (standardFeedChain .small crowdedFeeds).map (fun out ↦ (out.1.map Feed.origin, out.2.count)) =
      .ok ([("kraken", "USDTETH"), ("kraken", "USDTUSD")], 1) := by
  simp only [standardFeedChain, feedStages, List.map_cons, List.map_nil, Stage.chain,
    resolveCmcConflicts, references, resolveProviderConflicts, topFeeds, splitTop,
    Feed.sortByRank_eq_insertionSort, Feed.sortCanonical_eq_insertionSort]
  decide +kernel

/-- Of these feeds one is logged, one is not identified and one is outdone. -/
theorem standardFeedChain_accounts_crowded :
    ∃ kept removals named rivals chosen discarded,
      standardFeedChain .small crowdedFeeds = .ok (kept, removals) ∧
      kept.map Feed.origin = [("kraken", "USDTETH"), ("kraken", "USDTUSD")] ∧ removals.count = 1 ∧
      (∃ log, Stage.chain ((feedStages.take 5).map (·.2)) .small crowdedFeeds = .ok (named, log)) ∧
      (∃ log, Stage.chain ((feedStages.take 9).map (·.2)) .small crowdedFeeds = .ok (rivals, log)) ∧
      resolveProviderConflicts .small rivals = .ok (chosen, ∅) ∧
      Outdone rivals chosen discarded ∧
      (crowdedFeeds.map Feed.origin).Perm (kept.map Feed.origin ++
        removals.snapshots.map Feed.origin ++
          ((unidentified named).map Feed.origin ++ discarded.map Feed.origin)) ∧
      (unidentified named).length + discarded.length = 2 := by
  obtain ⟨⟨kept, removals⟩, hrun, hout⟩ := map_eq_ok.1 standardFeedChain_crowdedFeeds
  obtain ⟨horigins, hcount⟩ : kept.map Feed.origin =
      [("kraken", "USDTETH"), ("kraken", "USDTUSD")] ∧ removals.count = 1 := Prod.mk.inj hout
  obtain ⟨named, rivals, chosen, discarded, hnamed, hrivals, hchosen, houtdone, hperm, hlength⟩ :=
    standardFeedChain_accounts hrun
  refine ⟨kept, removals, named, rivals, chosen, discarded, hrun, horigins, hcount, hnamed, hrivals,
    hchosen, houtdone, hperm, ?_⟩
  have hkept : kept.length = 2 := by
    rw [← List.length_map (f := Feed.origin), horigins]
    rfl
  have hinput : crowdedFeeds.length = 5 := rfl
  omega

end OracleMarkets
