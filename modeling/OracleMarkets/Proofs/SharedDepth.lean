import OracleMarkets.Proofs.Grouping

/-!
# Depth that markets share

The depth of a market is that of all feeds about the assets of its first feed.  The id 0 stands for
no asset, but as a part of a pair of assets it is an id like others, so the feeds of which the base
has no id share their depth if their quotes are the same asset.  A market of which the base has an
id is told by its own feeds and those about the same assets only; a market of which it has none
takes in the depth of markets that have nothing to do with it.
-/

namespace OracleMarkets

variable {c : Config} {feeds feeds' : List Feed} {ticker : String}

/-! ## Assets without an id -/

/-- The id 0 stands for no other asset, and no asset for it. -/
structure Config.KeepsUnknown (c : Config) : Prop where
  source : c.aliases.get? 0 = none
  target : ∀ id, c.aliases.get? id ≠ some 0

/-- Only the id 0 resolves to the id 0. -/
theorem Config.KeepsUnknown.resolveId_eq_zero_iff (h : c.KeepsUnknown) {id : UInt64} :
    c.resolveId id = 0 ↔ id = 0 := by
  rw [resolveId, SortedMap.getD]
  constructor
  · intro hzero
    cases hid : c.aliases.get? id with
    | none =>
      rw [hid] at hzero
      exact hzero
    | some native =>
      rw [hid] at hzero
      cases hzero
      exact absurd hid (h.target id)
  · rintro rfl
    rw [h.source]
    rfl

/-! ## Other depths -/

/-- The feeds are the same, but the second may have another depth if it is not one of the ticker and
its base has no id. -/
inductive Feed.SameBut (ticker : String) (f : Feed) : Feed → Prop
  | same : SameBut ticker f f
  | depth (l : LiquidityInfo) (hid : f.cmc.baseId = 0) (hticker : f.tickerText ≠ ticker) :
    SameBut ticker f { f with liquidity := l }

/-- The lists differ only in the depth of feeds of other tickers of which the base has no id. -/
def AgreeBut (ticker : String) (feeds feeds' : List Feed) : Prop :=
  List.Forall₂ (Feed.SameBut ticker) feeds feeds'

/-- Whatever does not select the feeds that may differ selects the same feeds from both lists. -/
theorem AgreeBut.filter_eq (h : AgreeBut ticker feeds feeds') {p : Feed → Bool}
    (hp : ∀ f ∈ feeds, f.cmc.baseId = 0 → f.tickerText ≠ ticker →
      ∀ l, p { f with liquidity := l } = false) :
    feeds'.filter p = feeds.filter p := by
  induction h with
  | nil => rfl
  | @cons f _ _ _ hfeed _ ih =>
    obtain ⟨hf, hrest⟩ := List.forall_mem_cons.1 hp
    rw [List.filter_cons, List.filter_cons, ih hrest]
    cases hfeed with
    | same => rfl
    | depth l hid hticker =>
      rw [hf hid hticker l, hf hid hticker f.liquidity]
      rfl

/-- The feeds of the ticker are the same in both lists. -/
theorem AgreeBut.feedsOf_eq (h : AgreeBut ticker feeds feeds') :
    feedsOf feeds' ticker = feedsOf feeds ticker :=
  h.filter_eq fun _ _ _ hticker _ ↦ decide_eq_false hticker

/-- The depth of a pair of assets is the same in both lists if no feed that may differ is about the
pair. -/
theorem AgreeBut.pooledDepth_eq (h : AgreeBut ticker feeds feeds') {a : UInt64 × UInt64}
    (ha : ∀ f ∈ feeds, f.cmc.baseId = 0 → f.tickerText ≠ ticker → f.assets c ≠ a) :
    pooledDepth c feeds' a = pooledDepth c feeds a := by
  rw [pooledDepth, h.filter_eq fun f hf hid hticker _ ↦ decide_eq_false (ha f hf hid hticker)]
  rfl

/-! ## The market of a ticker -/

/-- Of a market, other depths of feeds of other tickers without an id of their base change at most
the depth that its metadata tell.  They do not change it if the base of the first feed of the ticker
has an id, or if its quote is another asset than the quotes of all these feeds. -/
theorem aggregate_agrees (hc : c.KeepsUnknown) (h : AgreeBut ticker feeds feeds') :
    (feedsOf feeds ticker = [] →
      (aggregate c feeds).get? ticker = none ∧ (aggregate c feeds').get? ticker = none) ∧
    ∀ first rest, feedsOf feeds ticker = first :: rest →
      (aggregate c feeds).get? ticker =
        some (.ofGroup (pooledDepth c feeds (first.assets c)) first rest) ∧
      (aggregate c feeds').get? ticker =
        some (.ofGroup (pooledDepth c feeds' (first.assets c)) first rest) ∧
      ((first.cmc.baseId ≠ 0 ∨ ∀ f ∈ feeds, f.cmc.baseId = 0 → f.tickerText ≠ ticker →
          c.resolveId f.cmc.quoteId ≠ c.resolveId first.cmc.quoteId) →
        (aggregate c feeds').get? ticker = (aggregate c feeds).get? ticker) := by
  rw [get?_aggregate_eq_ofGroup, get?_aggregate_eq_ofGroup, h.feedsOf_eq]
  constructor
  · intro hnil
    rw [hnil]
    exact ⟨rfl, rfl⟩
  · intro first rest hgroup
    rw [hgroup]
    refine ⟨rfl, rfl, fun hfirst ↦ ?_⟩
    dsimp only
    rw [h.pooledDepth_eq fun f hf hid hticker heq ↦ ?_]
    obtain ⟨hbase, hquote⟩ := Prod.mk.inj heq
    rcases hfirst with hknown | hquotes
    · rw [hc.resolveId_eq_zero_iff.2 hid] at hbase
      exact hknown (hc.resolveId_eq_zero_iff.1 hbase.symm)
    · exact hquotes f hf hid hticker hquote

/-! ## Two unknown assets -/

theorem Config.keepsUnknown_standard : standard.KeepsUnknown := by
  constructor
  · decide +kernel
  · intro id hid
    have htargets : 0 ∉ standard.aliases.toList.map (·.2) := by decide +kernel
    exact htargets (List.mem_map_of_mem (SortedMap.get?_eq_some_iff.1 hid))

def unknownFeed (base : String) (depth : Float) : Feed :=
  { Feed.ofPrice ⟨base, "USD"⟩ "kraken" (base ++ "-USD") 0.0 with liquidity := ⟨depth, depth⟩ }

def bitcoinFeed : Feed := { unknownFeed "BTC" 1.0 with cmc := ⟨1, 0, 1, 0⟩ }

/-- The depth of the other feed makes no difference to bitcoin, of which the id is known. -/
theorem aggregate_agrees_bitcoin :
    Config.standard.KeepsUnknown ∧
      AgreeBut "BTC/USD" [bitcoinFeed, unknownFeed "A" 1.0] [bitcoinFeed, unknownFeed "A" 0.0] ∧
      feedsOf [bitcoinFeed, unknownFeed "A" 1.0] "BTC/USD" = [bitcoinFeed] ∧
      bitcoinFeed.cmc.baseId ≠ 0 ∧
      (aggregate .standard [bitcoinFeed, unknownFeed "A" 0.0]).get? "BTC/USD" =
        (aggregate .standard [bitcoinFeed, unknownFeed "A" 1.0]).get? "BTC/USD" := by
  have hagree : AgreeBut "BTC/USD" [bitcoinFeed, unknownFeed "A" 1.0]
      [bitcoinFeed, unknownFeed "A" 0.0] :=
    .cons .same (.cons (.depth ⟨0.0, 0.0⟩ rfl (by decide +kernel)) .nil)
  have hgroup : feedsOf [bitcoinFeed, unknownFeed "A" 1.0] "BTC/USD" = [bitcoinFeed] := rfl
  have hknown : bitcoinFeed.cmc.baseId ≠ 0 := by decide +kernel
  obtain ⟨-, -, heq⟩ := (aggregate_agrees Config.keepsUnknown_standard hagree).2 _ _ hgroup
  exact ⟨Config.keepsUnknown_standard, hagree, hgroup, hknown, heq (.inl hknown)⟩

/-- The depth of one unknown asset is told as depth of another. -/
theorem exists_shared_depth :
    ∃ ticker feeds feeds' market market', Config.standard.KeepsUnknown ∧
      AgreeBut ticker feeds feeds' ∧
      (aggregate .standard feeds).get? ticker = some market ∧
      (aggregate .standard feeds').get? ticker = some market' ∧
      market.ticker.metadata = (CoreMetadata.mk 0 4 []).text ∧
      market'.ticker.metadata = (CoreMetadata.mk 0 2 []).text ∧ market ≠ market' := by
  have hagree : AgreeBut "A/USD" [unknownFeed "A" 1.0, unknownFeed "B" 1.0]
      [unknownFeed "A" 1.0, unknownFeed "B" 0.0] :=
    .cons .same (.cons (.depth ⟨0.0, 0.0⟩ rfl (by decide +kernel)) .nil)
  have htext : (CoreMetadata.mk 0 4 []).text ≠ (CoreMetadata.mk 0 2 []).text := by decide +kernel
  have hmetadata : groupMetadata (pooledDepth .standard [unknownFeed "A" 1.0, unknownFeed "B" 1.0]
      ((unknownFeed "A" 1.0).assets .standard)) (unknownFeed "A" 1.0) [] = ⟨0, 4, []⟩ := by
    decide +kernel
  have hmetadata' : groupMetadata (pooledDepth .standard [unknownFeed "A" 1.0, unknownFeed "B" 0.0]
      ((unknownFeed "A" 1.0).assets .standard)) (unknownFeed "A" 1.0) [] = ⟨0, 2, []⟩ := by
    decide +kernel
  refine ⟨_, _, _, _, _, Config.keepsUnknown_standard, hagree, get?_aggregate_eq_ofGroup _ _ _,
    get?_aggregate_eq_ofGroup _ _ _, congrArg CoreMetadata.text hmetadata,
    congrArg CoreMetadata.text hmetadata', fun heq ↦ htext ?_⟩
  rw [← hmetadata, ← hmetadata']
  exact congrArg (·.ticker.metadata) heq

end OracleMarkets
