import OracleMarkets.Proofs.Config
import OracleMarkets.Proofs.Stage.Basic
import OracleMarkets.Stage.Floors

/-!
# The order of the floors

A stage that leaves out the feeds to which it gives a reason, whatever other feeds there are, gives
the same reason to a feed that comes to it alone (`Stage.verdict`).  A chain of such stages keeps
the feeds to which none of them gives a reason, and it logs each of the others once, for the reason
of the first stage that gives one.  So the order of the stages decides about reasons and nothing
else.
-/

namespace OracleMarkets

variable {c : Config}

namespace Stage

/-! ## Verdicts on single feeds -/

/-- Why the stage leaves out a feed that comes to it alone. -/
def verdict (stage : FeedStage) (c : Config) (f : Feed) : Option String :=
  match stage c [f] with
  | .ok (_, log) => (log.getD f.tickerText []).head?.map (·.reason)
  | .error _ => none

/-- The stage leaves out the feeds to which it gives a reason, whatever other feeds there are. -/
def Sifts (c : Config) (stage : FeedStage) : Prop :=
  ∃ verdict, ∀ feeds, stage c feeds = .ok (siftBy verdict feeds)

/-- The reasons are those that the stage gives to single feeds. -/
theorem Sifts.eq {stage : FeedStage} (h : Sifts c stage) (feeds : List Feed) :
    stage c feeds = .ok (siftBy (stage.verdict c) feeds) := by
  obtain ⟨reason, hreason⟩ := h
  have hverdict : stage.verdict c = reason := by
    funext f
    rw [verdict, hreason [f]]
    dsimp only
    rw [getD_siftBy_snd]
    cases hf : reason f <;> simp [hf, DropLog.ofFeed]
  rw [hverdict, hreason]

/-- The reason of the first stage that leaves out the feed. -/
def firstVerdict (stages : List FeedStage) (c : Config) (f : Feed) : Option String :=
  stages.findSome? fun stage ↦ stage.verdict c f

theorem firstVerdict_cons (stage : FeedStage) (rest : List FeedStage) (f : Feed) :
    firstVerdict (stage :: rest) c f = (stage.verdict c f).or (firstVerdict rest c f) := by
  rw [firstVerdict, List.findSome?_cons]
  cases stage.verdict c f <;> rfl

theorem any_isSome_verdict (stages : List FeedStage) (f : Feed) :
    (stages.any fun stage ↦ (stage.verdict c f).isSome) = (firstVerdict stages c f).isSome := by
  rw [firstVerdict, List.isSome_findSome?]

/-! ## Chains of such stages -/

/-- What the stages log of a ticker, but for the order. -/
def refusals (stages : List FeedStage) (c : Config) (feeds : List Feed) (ticker : String) :
    List (Drop Feed) :=
  (feeds.filter fun f ↦ f.tickerText = ticker).filterMap fun f ↦
    (firstVerdict stages c f).map (DropLog.ofFeed f)

/-- What a first function gives of a list, and a second one of the rest. -/
theorem filterMap_append_perm {α β : Type} (first second : α → Option β) (l : List α) :
    (l.filterMap first ++ (l.filter fun a ↦ (first a).isNone).filterMap second).Perm
      (l.filterMap fun a ↦ (first a).or (second a)) := by
  induction l with
  | nil => exact .refl _
  | cons a l ih =>
    cases ha : first a with
    | some b => simpa [ha] using ih
    | none =>
      cases hb : second a with
      | none => simpa [ha, hb] using ih
      | some d => simpa [ha, hb] using List.perm_middle.trans (ih.cons d)

/-- A chain of stages that leave out feeds by verdicts on each keeps those to which no stage gives a
reason, and logs the others for the first reason that is given. -/
theorem exists_chain_eq_of_sifts {stages : List FeedStage} (h : ∀ stage ∈ stages, Sifts c stage)
    (feeds : List Feed) :
    ∃ log, chain stages c feeds =
        .ok (feeds.filter fun f ↦ (firstVerdict stages c f).isNone, log) ∧
      ∀ ticker, (log.getD ticker []).Perm (refusals stages c feeds ticker) := by
  induction stages generalizing feeds with
  | nil =>
    refine ⟨∅, ?_, fun ticker ↦ ?_⟩
    · simp [chain, firstVerdict]
    · simp [refusals, firstVerdict, SortedMap.getD]
  | cons stage rest ih =>
    obtain ⟨hstage, hrest⟩ := List.forall_mem_cons.1 h
    obtain ⟨more, hmore, hlog⟩ := ih hrest (siftBy (stage.verdict c) feeds).1
    have hkept : (siftBy (stage.verdict c) feeds).1.filter
        (fun f ↦ (firstVerdict rest c f).isNone) =
          feeds.filter fun f ↦ (firstVerdict (stage :: rest) c f).isNone := by
      rw [siftBy_fst, List.filter_filter]
      refine List.filter_congr fun f _ ↦ ?_
      rw [firstVerdict_cons]
      cases stage.verdict c f <;> simp
    rw [hkept] at hmore
    refine ⟨(siftBy (stage.verdict c) feeds).2.merge more,
      chain_cons_eq_ok.2 ⟨_, _, more, hstage.eq feeds, hmore, rfl⟩, fun ticker ↦ ?_⟩
    -- Of the feeds of the ticker, those that pass the first stage come to the rest.
    have hpassed : refusals rest c (siftBy (stage.verdict c) feeds).1 ticker =
        ((feeds.filter fun f ↦ f.tickerText = ticker).filter fun f ↦
          ((stage.verdict c f).map (DropLog.ofFeed f)).isNone).filterMap fun f ↦
            (firstVerdict rest c f).map (DropLog.ofFeed f) := by
      rw [refusals, siftBy_fst, List.filter_filter, List.filter_filter]
      simp only [Option.isNone_map, Bool.and_comm]
    rw [DropLog.getD_merge, getD_siftBy_snd]
    refine ((hpassed ▸ hlog ticker).append_left _).trans ((filterMap_append_perm _ _ _).trans ?_)
    refine .of_eq (List.filterMap_congr fun f _ ↦ ?_)
    rw [firstVerdict_cons]
    cases stage.verdict c f <;> rfl

/-- The feeds of a ticker to which some stage gives a reason are those that are logged of it. -/
theorem map_snapshot_refusals (stages : List FeedStage) (feeds : List Feed) (ticker : String) :
    (refusals stages c feeds ticker).map (·.snapshot) = feeds.filter fun f ↦
      f.tickerText = ticker ∧ stages.any fun stage ↦ (stage.verdict c f).isSome := by
  rw [refusals, List.map_filterMap, ← List.filterMap_eq_filter, ← List.filterMap_eq_filter,
    List.filterMap_filterMap]
  refine List.filterMap_congr fun f _ ↦ ?_
  by_cases hticker : f.tickerText = ticker
  · cases hf : firstVerdict stages c f <;>
      simp [Option.guard, hticker, any_isSome_verdict, hf, DropLog.ofFeed]
  · simp [Option.guard, hticker]

end Stage

/-! ## The four floors -/

/-- The stages over floors, in the order in which the standard chain has them. -/
def floorStages : List FeedStage :=
  [pruneByLiquidity, pruneByQuoteVolume, pruneByProviderLiquidity, pruneByProviderUsdVolume]

theorem sifts_of_mem_floorStages {stage : FeedStage} (h : stage ∈ floorStages) :
    Stage.Sifts c stage := by
  simp only [floorStages, List.mem_cons, List.not_mem_nil, or_false] at h
  rcases h with rfl | rfl | rfl | rfl
  · exact ⟨_, fun _ ↦ rfl⟩
  · exact ⟨_, fun _ ↦ rfl⟩
  · exact ⟨_, fun _ ↦ rfl⟩
  · exact ⟨_, fun _ ↦ rfl⟩

/-- Whether some floor leaves out the feed. -/
def fallsShort (c : Config) (f : Feed) : Bool :=
  floorStages.any fun stage ↦ (stage.verdict c f).isSome

/-- In whatever order the floors stand, their chain keeps the feeds that no floor leaves out, and it
logs each of the others for the reason of the first floor in that order that leaves it out. -/
theorem exists_chain_floors_eq {order : List FeedStage} (h : order.Perm floorStages)
    (feeds : List Feed) :
    ∃ log, Stage.chain order c feeds = .ok (feeds.filter fun f ↦ !fallsShort c f, log) ∧
      ∀ ticker, (log.getD ticker []).Perm (Stage.refusals order c feeds ticker) ∧
        ((log.getD ticker []).map (·.snapshot)).Perm
          (feeds.filter fun f ↦ f.tickerText = ticker ∧ fallsShort c f) := by
  have hany : ∀ f, (order.any fun stage ↦ (stage.verdict c f).isSome) = fallsShort c f :=
    fun f ↦ h.any_eq
  have hnone : ∀ f, (Stage.firstVerdict order c f).isNone = !fallsShort c f := by
    intro f
    rw [← hany, Stage.any_isSome_verdict, Option.not_isSome]
  obtain ⟨log, hrun, hlog⟩ := Stage.exists_chain_eq_of_sifts (c := c)
    (fun stage hstage ↦ sifts_of_mem_floorStages (h.mem_iff.1 hstage)) feeds
  simp only [hnone] at hrun
  refine ⟨log, hrun, fun ticker ↦ ⟨hlog ticker, ?_⟩⟩
  have hsnapshots := (hlog ticker).map (·.snapshot)
  simpa only [Stage.map_snapshot_refusals, hany] using hsnapshots

/-- Two chains of the four floors, in any order each, do not fail and keep the same feeds: those
that no floor leaves out, in the order of the list.  Under every ticker both log the other feeds of
the ticker, each once, and for the reason of the first floor in the order of the chain that leaves
the feed out. -/
theorem chain_floors_comm (c : Config) (feeds : List Feed) {order order' : List FeedStage}
    (h : order.Perm floorStages) (h' : order'.Perm floorStages) :
    ∃ log log',
      Stage.chain order c feeds = .ok (feeds.filter fun f ↦ !fallsShort c f, log) ∧
      Stage.chain order' c feeds = .ok (feeds.filter fun f ↦ !fallsShort c f, log') ∧
      (∀ ticker, ((log.getD ticker []).map (·.snapshot)).Perm
          (feeds.filter fun f ↦ f.tickerText = ticker ∧ fallsShort c f) ∧
        ((log'.getD ticker []).map (·.snapshot)).Perm
          (feeds.filter fun f ↦ f.tickerText = ticker ∧ fallsShort c f)) ∧
      ∀ ticker, (log.getD ticker []).Perm (Stage.refusals order c feeds ticker) ∧
        (log'.getD ticker []).Perm (Stage.refusals order' c feeds ticker) := by
  obtain ⟨log, hrun, hlog⟩ := exists_chain_floors_eq (c := c) h feeds
  obtain ⟨log', hrun', hlog'⟩ := exists_chain_floors_eq (c := c) h' feeds
  exact ⟨log, log', hrun, hrun', fun ticker ↦ ⟨(hlog ticker).2, (hlog' ticker).2⟩,
    fun ticker ↦ ⟨(hlog ticker).1, (hlog' ticker).1⟩⟩

/-- A feed that is kept, and one without settings of its quote or its venue. -/
def unplacedFeeds : List Feed :=
  [Feed.ofPrice ⟨"BTC", "USD"⟩ "kraken" "BTC-USD" 1.0,
    Feed.ofPrice ⟨"ETH", "EUR"⟩ "elsewhere" "ETH-EUR" 1.0]

/-- The feed without settings is left out in either order, for a quote in the one and for a venue in
the other. -/
theorem chain_floors_comm_unplaced :
    floorStages.Perm floorStages ∧ floorStages.reverse.Perm floorStages ∧
      (unplacedFeeds.filter fun f ↦ !fallsShort .small f).map Feed.tickerText = ["BTC/USD"] ∧
      (Stage.refusals floorStages .small unplacedFeeds "ETH/EUR").map (·.reason) =
        ["quote config for EUR not found"] ∧
      (Stage.refusals floorStages.reverse .small unplacedFeeds "ETH/EUR").map (·.reason) =
        ["provider config for elsewhere not found"] ∧
      ∃ log log',
        Stage.chain floorStages .small unplacedFeeds =
          .ok (unplacedFeeds.filter fun f ↦ !fallsShort .small f, log) ∧
        Stage.chain floorStages.reverse .small unplacedFeeds =
          .ok (unplacedFeeds.filter fun f ↦ !fallsShort .small f, log') ∧
        (∀ ticker, ((log.getD ticker []).map (·.snapshot)).Perm
            (unplacedFeeds.filter fun f ↦ f.tickerText = ticker ∧ fallsShort .small f) ∧
          ((log'.getD ticker []).map (·.snapshot)).Perm
            (unplacedFeeds.filter fun f ↦ f.tickerText = ticker ∧ fallsShort .small f)) ∧
        ∀ ticker,
          (log.getD ticker []).Perm (Stage.refusals floorStages .small unplacedFeeds ticker) ∧
          (log'.getD ticker []).Perm
            (Stage.refusals floorStages.reverse .small unplacedFeeds ticker) := by
  have hperm := List.reverse_perm floorStages
  exact ⟨.refl _, hperm, by decide +kernel, by decide +kernel, by decide +kernel,
    chain_floors_comm .small unplacedFeeds (.refl _) hperm⟩

end OracleMarkets
