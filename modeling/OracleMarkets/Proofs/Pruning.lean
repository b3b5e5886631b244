import OracleMarkets.Proofs.Generation

/-!
# Feeds that are pruned

The first five stages look at one feed at a time, so what they make of a list is what they make of
its feeds one by one.  A feed that does not come out of them has no influence on anything but the
log of removed feeds: the stages that compare feeds have not seen it.
-/

namespace OracleMarkets

variable {c : Config}

open Stage (Meets)

/-! ## Stages that look at one feed at a time -/

namespace Stage

/-- What a stage makes of a feed on its own. -/
def alone? (stage : FeedStage) (c : Config) (f : Feed) : Option Feed :=
  match stage c [f] with
  | .ok (kept, _) => kept.head?
  | .error _ => none

/-- The stage does not fail, and makes of the feeds of a list what it makes of each on its own. -/
def Feedwise (c : Config) (stage : FeedStage) : Prop :=
  ∀ feeds, ∃ log, stage c feeds = .ok (feeds.filterMap (stage.alone? c), log)

/-- A stage that sifts feeds by a verdict on each looks at one feed at a time. -/
theorem feedwise_of_sift {stage : FeedStage} {judge : Feed → Feed × Option String}
    (h : ∀ feeds, stage c feeds = .ok (sift (feeds.map judge))) : Feedwise c stage := by
  intro feeds
  have halone : stage.alone? c =
      fun f ↦ if (judge f).2.isNone then some (judge f).1 else none := by
    funext f
    rw [alone?, h [f]]
    dsimp only
    rw [sift_map_fst]
    cases hj : (judge f).2 <;> simp [hj]
  rw [h feeds, halone, ← sift_map_fst]
  exact ⟨_, rfl⟩

theorem Feedwise.nil : Feedwise c (chain []) := by
  intro feeds
  have halone : alone? (chain []) c = some := rfl
  rw [halone, List.filterMap_some]
  exact ⟨∅, rfl⟩

/-- If two stages look at one feed at a time, so does the one after the other. -/
theorem Feedwise.cons {stage : FeedStage} {rest : List FeedStage} (h : Feedwise c stage)
    (hrest : Feedwise c (chain rest)) : Feedwise c (chain (stage :: rest)) := by
  have hrun : ∀ feeds, ∃ log, chain (stage :: rest) c feeds =
      .ok ((feeds.filterMap (stage.alone? c)).filterMap (alone? (chain rest) c), log) := by
    intro feeds
    obtain ⟨log, hlog⟩ := h feeds
    obtain ⟨more, hmore⟩ := hrest (feeds.filterMap (stage.alone? c))
    exact ⟨log.merge more, chain_cons_eq_ok.2 ⟨_, log, more, hlog, hmore, rfl⟩⟩
  have halone : alone? (chain (stage :: rest)) c =
      fun f ↦ (stage.alone? c f).bind (alone? (chain rest) c) := by
    funext f
    obtain ⟨log, hlog⟩ := hrun [f]
    rw [alone?, hlog]
    cases hf : stage.alone? c f with
    | none => simp [hf]
    | some g => cases hg : alone? (chain rest) c g <;> simp [hf, hg]
  intro feeds
  rw [halone, ← List.filterMap_filterMap]
  exact hrun feeds

end Stage

/-! ## The first five stages -/

/-- The stages that come before any that compares feeds. -/
def pruningStages : List FeedStage := (feedStages.take 5).map (·.2)

/-- The first five stages look at each feed on its own. -/
theorem feedwise_pruningStages : Stage.Feedwise c (Stage.chain pruningStages) := by
  have hrestate : Stage.Feedwise c invertOrDrop := Stage.feedwise_of_sift fun _ ↦ rfl
  have hliquidity : Stage.Feedwise c pruneByLiquidity := Stage.feedwise_of_sift fun _ ↦ rfl
  have hvolume : Stage.Feedwise c pruneByQuoteVolume := Stage.feedwise_of_sift fun _ ↦ rfl
  have hdepth : Stage.Feedwise c pruneByProviderLiquidity := Stage.feedwise_of_sift fun _ ↦ rfl
  have husd : Stage.Feedwise c pruneByProviderUsdVolume := Stage.feedwise_of_sift fun _ ↦ rfl
  exact hrestate.cons (hliquidity.cons (hvolume.cons (hdepth.cons (husd.cons .nil))))

/-- What the first five stages make of a feed, unless they leave it out. -/
def survivor? (c : Config) : Feed → Option Feed := (Stage.chain pruningStages).alone? c

/-- The feeds that the first five stages do not leave out, as they were before. -/
def survivors (c : Config) (feeds : List Feed) : List Feed :=
  feeds.filter fun f ↦ (survivor? c f).isSome

theorem filterMap_survivors (feeds : List Feed) :
    (survivors c feeds).filterMap (survivor? c) = feeds.filterMap (survivor? c) := by
  rw [survivors, List.filterMap_filter]
  refine List.filterMap_congr fun f _ ↦ ?_
  cases hf : survivor? c f <;> simp

/-- Feeds may be pruned before or after they are put in canonical order. -/
theorem survivors_sortCanonical (feeds : List Feed) :
    survivors c (Feed.sortCanonical feeds) = Feed.sortCanonical (survivors c feeds) :=
  Feed.filter_sortCanonical _ feeds

/-- The first five stages leave restated feeds of venues with settings. -/
theorem pruningStages_meets {E : PipelineError → Prop} (input : List Feed) :
    Meets c (Stage.chain pruningStages) (fun feeds ↦ feeds = input)
      (fun feeds ↦ (∀ h ∈ feeds, ∃ g ∈ input, RestatesTo c g h) ∧
        ∀ h ∈ feeds, (c.provider? h.venue).isSome) E := by
  have hrestated := inherited_forall fun h ↦ ∃ g ∈ input, RestatesTo c g h
  have hknown := hrestated.and (inherited_forall fun f ↦ (c.provider? f.venue).isSome)
  refine (invertOrDrop_meets input).cons ?_
  refine (pruneByLiquidity_meets hrestated).cons ?_
  refine (pruneByQuoteVolume_meets hrestated).cons ?_
  refine (pruneByProviderLiquidity_meets hrestated).cons ?_
  exact (pruneByProviderUsdVolume_meets hknown).cons .nil

/-- Only feeds of venues with settings come out of the first five stages. -/
theorem isSome_provider?_of_survivor? {f : Feed} (h : (survivor? c f).isSome) :
    (c.provider? f.venue).isSome := by
  obtain ⟨g, hg⟩ := Option.isSome_iff_exists.1 h
  obtain ⟨log, hlog⟩ := feedwise_pruningStages (c := c) [f]
  have hkept := (pruningStages_meets (E := fun _ ↦ True) [f]).ok rfl hlog
  have hmem : g ∈ [f].filterMap ((Stage.chain pruningStages).alone? c) :=
    List.mem_filterMap.2 ⟨f, List.mem_cons_self, hg⟩
  obtain ⟨f', hf', hfg⟩ := hkept.1 g hmem
  cases List.mem_singleton.1 hf'
  rw [← hfg.venue_eq]
  exact hkept.2 g hmem

/-- Feeds of venues without settings are left out by the first five stages. -/
theorem survivors_configured (feeds : List Feed) :
    survivors c (feeds.filter fun f ↦ (c.provider? f.venue).isSome) = survivors c feeds := by
  rw [survivors, List.filter_filter]
  refine List.filter_congr fun f _ ↦ ?_
  cases hf : (survivor? c f).isSome with
  | false => rfl
  | true => rw [isSome_provider?_of_survivor? hf, Bool.and_true]

/-! ## Generation -/

/-- The standard chain keeps the same feeds if those that its first stages leave out are missing. -/
theorem standardFeedChain_survivors (feeds : List Feed) :
    (standardFeedChain c (survivors c feeds)).map (·.1) =
      (standardFeedChain c feeds).map (·.1) := by
  have hsplit : standardFeedChain =
      Stage.chain (pruningStages ++ (feedStages.drop 5).map (·.2)) := by
    rw [pruningStages, ← List.map_append, List.take_append_drop]
    rfl
  obtain ⟨log, hlog⟩ := feedwise_pruningStages (c := c) feeds
  obtain ⟨log', hlog'⟩ := feedwise_pruningStages (c := c) (survivors c feeds)
  have hsame := filterMap_survivors (c := c) feeds
  rw [survivor?] at hsame
  rw [hsplit, Stage.map_fst_chain_append, Stage.map_fst_chain_append, hlog, hlog', hsame]
  rfl

namespace Generator

/-- What the stages after the chain over feeds make of the feeds that this chain keeps. -/
def emit (g : Generator) (kept : List Feed) : Except PipelineError (MarketMap × ExclusionLog) := do
  let (marketMap, exclusions) ← g.marketChain g.config (aggregate g.config kept)
  liftValidation marketMap.validate
  return (marketMap, exclusions)

end Generator

/-- What a generation gives besides the log of removed feeds. -/
def Generated.emitted (out : Generated) : MarketMap × ExclusionLog :=
  (out.marketMap, out.exclusions)

/-- What a generation gives besides the log of removed feeds depends only on the feeds that are
kept. -/
theorem Generator.map_emitted_generateFromFeeds (g : Generator) (feeds : List Feed) :
    (g.generateFromFeeds feeds).map Generated.emitted =
      (g.feedChain g.config (Feed.sortCanonical feeds)).map (·.1) >>= g.emit := by
  simp only [generateFromFeeds, emit, Generated.emitted, map_eq_bind_pure, bind_assoc, pure_bind]

/-- The first five stages of a standard chain look at every feed on its own.  If the feeds that they
leave out are missing from the start, the chain keeps the same feeds, and the generation gives the
same market map and the same log of excluded markets, or it fails with the same error.  So it does
if the feeds of venues without settings are missing. -/
theorem generateFromFeeds_survivors {g : Generator} (hg : g.feedChain = standardFeedChain)
    (feeds : List Feed) :
    (∃ log, Stage.chain pruningStages g.config feeds =
        .ok (feeds.filterMap (survivor? g.config), log)) ∧
      (standardFeedChain g.config (Feed.sortCanonical (survivors g.config feeds))).map (·.1) =
        (standardFeedChain g.config (Feed.sortCanonical feeds)).map (·.1) ∧
      (g.generateFromFeeds (survivors g.config feeds)).map Generated.emitted =
        (g.generateFromFeeds feeds).map Generated.emitted ∧
      (g.generateFromFeeds (feeds.filter fun f ↦ (g.config.provider? f.venue).isSome)).map
          Generated.emitted =
        (g.generateFromFeeds feeds).map Generated.emitted := by
  have hkept : ∀ feeds : List Feed,
      (standardFeedChain g.config (Feed.sortCanonical (survivors g.config feeds))).map (·.1) =
        (standardFeedChain g.config (Feed.sortCanonical feeds)).map (·.1) := by
    intro feeds
    rw [← survivors_sortCanonical]
    exact standardFeedChain_survivors _
  have hemitted : ∀ feeds : List Feed,
      (g.generateFromFeeds (survivors g.config feeds)).map Generated.emitted =
        (g.generateFromFeeds feeds).map Generated.emitted := by
    intro feeds
    rw [g.map_emitted_generateFromFeeds, g.map_emitted_generateFromFeeds, hg, hkept feeds]
  refine ⟨feedwise_pruningStages feeds, hkept feeds, hemitted feeds, ?_⟩
  rw [← hemitted, survivors_configured, hemitted]

/-- Besides the small feeds, one of a venue without settings, which would double a price, and one
without a quote that markets may have. -/
def noisyFeeds : List Feed :=
  smallFeeds ++
    [{ Feed.ofPrice ⟨"USDT", "USD"⟩ "elsewhere" "USDTUSD" 3.0 with cmc := ⟨825, 0, 1, 0⟩ },
      Feed.ofPrice ⟨"ETH", "EUR"⟩ "kraken" "ETHEUR" 1.0]

/-- The feeds that do not survive make no difference, although one of them would double a price. -/
theorem generateFromFeeds_survivors_noisy :
    Generator.small.feedChain = standardFeedChain ∧
      (survivors .small noisyFeeds).map (fun f ↦ (f.venue, f.provider.offChainTicker)) =
        [("kraken", "USDTUSD"), ("kraken", "USDTETH")] ∧
      (∃ log, Stage.chain pruningStages .small noisyFeeds =
        .ok (noisyFeeds.filterMap (survivor? .small), log)) ∧
      (standardFeedChain .small (Feed.sortCanonical (survivors .small noisyFeeds))).map (·.1) =
        (standardFeedChain .small (Feed.sortCanonical noisyFeeds)).map (·.1) ∧
      (Generator.small.generateFromFeeds (survivors .small noisyFeeds)).map Generated.emitted =
        (Generator.small.generateFromFeeds noisyFeeds).map Generated.emitted ∧
      (Generator.small.generateFromFeeds
          (noisyFeeds.filter fun f ↦ (Config.small.provider? f.venue).isSome)).map
          Generated.emitted =
        (Generator.small.generateFromFeeds noisyFeeds).map Generated.emitted :=
  have hchain : Generator.small.feedChain = standardFeedChain := by rw [Generator.small]
  ⟨hchain, by decide +kernel, generateFromFeeds_survivors hchain noisyFeeds⟩

end OracleMarkets
