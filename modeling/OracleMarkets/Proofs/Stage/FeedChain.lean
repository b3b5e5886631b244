import OracleMarkets.Proofs.Stage.Floors
import OracleMarkets.Proofs.Stage.Identity
import OracleMarkets.Proofs.Stage.Limits
import OracleMarkets.Proofs.Stage.Restate
import OracleMarkets.Stage.Standard

/-!
# What the standard chain over feeds guarantees

Each guarantee is made by one stage and is kept by those that follow, since all stages but two only
leave out feeds.  The two that restate feeds come first and leave the pair of a feed with the quote
that it settles in.
-/

namespace OracleMarkets

variable {c : Config}

open Stage (Meets)

/-- `f` is the feed `g` as it comes out of the chain. -/
def SettlesTo (c : Config) (g f : Feed) : Prop := ∃ h, RestatesTo c g h ∧ RequotesTo c h f

/-- What the stages leave of a list of feeds, whatever their pairs. -/
structure Selected (c : Config) (input kept : List Feed) : Prop where
  settles : ∀ f ∈ kept, ∃ g ∈ input, SettlesTo c g f
  configured : ∀ f ∈ kept, (c.provider? f.venue).isSome
  hasId : ∀ f ∈ kept, lacksId? c f = none
  oneBase : OneBase kept
  unique : OnePerVenue kept
  fits : FitsLimits c kept
  ordered : kept.Pairwise fun f g ↦ f.canonicalLe g = true

/-- `normalize` settles the feeds that `invertOrDrop` has restated, and changes no venue. -/
theorem normalize_settles (input : List Feed) :
    Meets c normalize
      (fun feeds ↦ (∀ h ∈ feeds, ∃ g ∈ input, RestatesTo c g h) ∧
        ∀ h ∈ feeds, (c.provider? h.venue).isSome)
      (fun feeds ↦ ∀ f ∈ feeds, (∃ g ∈ input, SettlesTo c g f) ∧ (c.provider? f.venue).isSome)
      (IsUnavailable c) := by
  refine (normalize_meets
    (R := fun h ↦ (∃ g ∈ input, RestatesTo c g h) ∧ (c.provider? h.venue).isSome) ?_).imp ?_ ?_
  · rintro h ⟨⟨g, -, hgh⟩, -⟩
    exact isTargetQuote_of_restate? hgh.restate
  · exact fun feeds h f hf ↦ ⟨h.1 f hf, h.2 f hf⟩
  · intro feeds hfeeds f hf
    obtain ⟨h, ⟨⟨g, hg, hgh⟩, hsome⟩, hhf⟩ := hfeeds f hf
    refine ⟨⟨g, hg, h, hgh, hhf⟩, ?_⟩
    cases hhf with
    | same => exact hsome
    | rescaled => rwa [Feed.venue_rescale]

/-- The standard chain selects feeds, or it lacks the price of a pair by which a quote is
normalized. -/
theorem standardFeedChain_meets (input : List Feed) :
    Meets c standardFeedChain (fun feeds ↦ feeds = input) (Selected c input) (IsUnavailable c) := by
  have hrestated := inherited_forall fun h ↦ ∃ g ∈ input, RestatesTo c g h
  have hknown := hrestated.and (inherited_forall fun f ↦ (c.provider? f.venue).isSome)
  have hsettled := inherited_forall fun f ↦
    (∃ g ∈ input, SettlesTo c g f) ∧ (c.provider? f.venue).isSome
  have hids := hsettled.and (inherited_forall fun f ↦ lacksId? c f = none)
  have hbase := hids.and inherited_oneBase
  have hunique := hbase.and inherited_onePerVenue
  refine (invertOrDrop_meets input).cons ?_
  refine (pruneByLiquidity_meets hrestated).cons ?_
  refine (pruneByQuoteVolume_meets hrestated).cons ?_
  refine (pruneByProviderLiquidity_meets hrestated).cons ?_
  refine (pruneByProviderUsdVolume_meets hknown).cons ?_
  refine (resolveAliases_meets hknown).cons ?_
  refine (normalize_settles input).cons ?_
  refine (dropFeedsWithoutIds_meets hsettled).cons ?_
  refine (resolveCmcConflicts_meets hids).cons ?_
  refine (resolveProviderConflicts_meets hbase).cons ?_
  refine (topFeeds_meets hunique fun feeds h f hf ↦ (h.1.1.1 f hf).2).cons ?_
  refine Meets.nil.imp ?_ fun _ h ↦ h
  rintro feeds ⟨⟨⟨⟨hsettles, hid⟩, hone⟩, huniq⟩, hfits, hordered⟩
  exact ⟨fun f hf ↦ (hsettles f hf).1, fun f hf ↦ (hsettles f hf).2, hid, hone, huniq, hfits,
    hordered⟩

/-- Whatever the standard chain keeps is selected from its feeds. -/
theorem selected_of_standardFeedChain {input kept : List Feed} {log : RemovalLog}
    (hrun : standardFeedChain c input = .ok (kept, log)) : Selected c input kept :=
  (standardFeedChain_meets input).ok rfl hrun

/-- Every feed that is kept of sorted feeds is made of one of them. -/
theorem exists_settlesTo_of_standardFeedChain {feeds kept : List Feed} {log : RemovalLog}
    (hrun : standardFeedChain c (Feed.sortCanonical feeds) = .ok (kept, log)) {f : Feed}
    (hf : f ∈ kept) : ∃ g ∈ feeds, SettlesTo c g f := by
  obtain ⟨g, hg, hgf⟩ := (selected_of_standardFeedChain hrun).settles f hf
  exact ⟨g, (Feed.sortCanonical_perm feeds).mem_iff.1 hg, hgf⟩

/-! ## Pairs of the feeds that are kept -/

/-- A rescaled feed with a valid pair has its base in upper case and the quote of the pair by which
it is rescaled. -/
theorem Feed.pair_rescale {h : Feed} {n : CurrencyPair} (hh : h.pair.Valid) (hn : n.Normal)
    (price : Float) : (h.rescale n price).pair = ⟨Text.upper h.pair.base, n.quote⟩ := by
  show CurrencyPair.ofSymbols h.pair.base n.quote = _
  rw [CurrencyPair.ofSymbols, Text.trim_eq_self hh.1.2.2, Text.trim_eq_self hn.quote.valid.2.2,
    hn.quote.upper_eq]

/-- A feed ends up with its base and the quote that it settles in. -/
theorem RequotesTo.pair_eq (hc : c.IsDecoded) {h f : Feed} (hh : h.pair.Normal)
    (hf : RequotesTo c h f) : f.pair = ⟨h.pair.base, c.settledQuote h.pair.quote⟩ := by
  cases hf with
  | same hn => rw [Config.settledQuote_of_no_normalizer hn]
  | rescaled price hn =>
    rw [Config.settledQuote_of_normalizer hn, Feed.pair_rescale hh.valid (hc.normal_normalizer hn),
      hh.base.upper_eq]

theorem normalSymbol_settledQuote (hc : c.IsDecoded) {quote : String}
    (hq : CurrencyPair.NormalSymbol quote) : CurrencyPair.NormalSymbol (c.settledQuote quote) := by
  cases hn : c.normalizer? quote with
  | none => rwa [Config.settledQuote_of_no_normalizer hn]
  | some n =>
    rw [Config.settledQuote_of_normalizer hn]
    exact (hc.normal_normalizer hn).quote

/-- A feed with a normal pair ends up with a normal pair. -/
theorem SettlesTo.normal (hc : c.IsDecoded) {g f : Feed} (hg : g.pair.Normal)
    (hf : SettlesTo c g f) : f.pair.Normal := by
  obtain ⟨h, hgh, hhf⟩ := hf
  have hh := normal_of_restate? hgh.restate hg
  rw [hhf.pair_eq hc hh]
  exact ⟨hh.base, normalSymbol_settledQuote hc hh.quote, hgh.settles⟩

/-- Only the pair of a feed's ticker changes. -/
theorem SettlesTo.ticker_eq {g f : Feed} (hf : SettlesTo c g f) :
    f.ticker = { g.ticker with pair := f.pair } := by
  obtain ⟨h, hgh, hhf⟩ := hf
  have hh : h.ticker = { g.ticker with pair := h.pair } := by
    rcases restate?_cases hgh.restate with ⟨-, rfl⟩ | ⟨-, -, rfl⟩
    · rfl
    · rfl
  cases hhf with
  | same => exact hh
  | @rescaled n price =>
    calc (h.rescale n price).ticker
        = { h.ticker with pair := (h.rescale n price).pair } := by rw [Feed.pair, Feed.rescale]
      _ = { g.ticker with pair := (h.rescale n price).pair } := by rw [hh]

/-- What is guaranteed of the feeds `kept` that the chain leaves of the feeds `input`. -/
structure Settled (c : Config) (input kept : List Feed) : Prop where
  isTargetQuote : ∀ f ∈ kept, c.isTargetQuote f.pair.quote = true
  /-- Every feed is a restated one of the list, which the chain normalizes exactly if its quote is
  normalized by a pair.  This pair has the quote that the feed has then.  The feed is not the price
  of a symbol in itself, nor of the symbol that its former quote is, unless it is normalized and its
  base was not in upper case. -/
  normalized : ∀ f ∈ kept, ∃ g ∈ input, ∃ h, restate? c g = some h ∧
    ((c.normalizer? h.pair.quote = none ∧ f = h ∧ f.pair.base ≠ f.pair.quote) ∨
      ∃ n price, c.normalizer? h.pair.quote = some n ∧ f = h.rescale n price ∧
        f.provider.normalizeBy = some n ∧ n.quote = f.pair.quote ∧
        f.pair.base = Text.upper h.pair.base ∧
        (Text.upper h.pair.base = h.pair.base →
          f.pair.base ≠ f.pair.quote ∧ n.base ≠ f.pair.base))
  unique : OnePerVenue kept
  oneBase : OneBase kept
  /-- Every venue has settings, no more feeds than these allow, and a base id wherever these require
  one. -/
  venue : ∀ f ∈ kept, ∃ s, c.provider? f.venue = some s ∧
    (s.filterTopAmount ≠ 0 →
      (kept.filter fun g ↦ g.venue = f.venue).length ≤ s.filterTopAmount.toNat) ∧
    (s.requiresAggregateIds = true → f.cmc.baseId ≠ 0)
  sorted : kept.Pairwise fun f g ↦ (compare f.pair g.pair).then (compare f.venue g.venue) = .lt

/-- The standard chain of a consistent configuration that was read leaves settled feeds of feeds
with valid pairs. -/
theorem settled_of_standardFeedChain {c : Config} (hc : c.IsDecoded) (hv : c.validate = .ok ())
    {input kept : List Feed} {log : RemovalLog} (hin : ∀ f ∈ input, f.pair.Valid)
    (hrun : standardFeedChain c input = .ok (kept, log)) : Settled c input kept := by
  have hsel := selected_of_standardFeedChain hrun
  refine ⟨?_, ?_, hsel.unique, hsel.oneBase, ?_, ?_⟩
  · intro f hf
    obtain ⟨g, hg, h, hgh, hhf⟩ := hsel.settles f hf
    cases hhf with
    | same => exact isTargetQuote_of_restate? hgh.restate
    | @rescaled n price hn =>
      rw [Feed.pair_rescale (valid_of_restate? hgh.restate (hin g hg)) (hc.normal_normalizer hn)]
      exact (Config.normalizer_of_validate hv hn).2
  · intro f hf
    obtain ⟨g, hg, h, hgh, hhf⟩ := hsel.settles f hf
    have hh := valid_of_restate? hgh.restate (hin g hg)
    have hsettles := hgh.settles
    refine ⟨g, hg, h, hgh.restate, ?_⟩
    cases hhf with
    | same hn =>
      rw [Config.settledQuote_of_no_normalizer hn] at hsettles
      exact .inl ⟨hn, rfl, hsettles⟩
    | @rescaled n price hn =>
      have hpair := Feed.pair_rescale hh (hc.normal_normalizer hn) price
      have hbase := (Config.normalizer_of_validate hv hn).1
      rw [Config.settledQuote_of_normalizer hn] at hsettles
      refine .inr ⟨n, price, hn, rfl, Feed.normalizeBy_rescale h n price, ?_⟩
      rw [hpair]
      refine ⟨rfl, rfl, fun hupper ↦ ?_⟩
      rw [hupper, hbase]
      exact ⟨hsettles, hh.2.2.symm⟩
  · intro f hf
    obtain ⟨s, hs⟩ := Option.isSome_iff_exists.1 (hsel.configured f hf)
    exact ⟨s, hs, hsel.fits f.venue s hs, lacksId?_eq_none_iff.1 (hsel.hasId f hf) s hs⟩
  · refine (hsel.ordered.and hsel.unique).imp fun {f g} h ↦ Feed.lt_of_canonicalLe h.1 fun hfg ↦ ?_
    exact h.2 ⟨congrArg CurrencyPair.text hfg.1, hfg.2⟩

/-- The price of a stable coin, and one in it that is seen from the other side. -/
def smallFeeds : List Feed :=
  [{ Feed.ofPrice ⟨"USDT", "USD"⟩ "kraken" "USDTUSD" 1.0 with cmc := ⟨825, 0, 3, 0⟩ },
    { Feed.ofPrice ⟨"USDT", "ETH"⟩ "kraken" "USDTETH" 0.0 with cmc := ⟨825, 1027, 3, 2⟩ }]

theorem normal_smallFeeds : ∀ f ∈ smallFeeds, f.pair.Normal := by
  refine List.forall_mem_cons.2 ⟨?_, List.forall_mem_singleton.2 ?_⟩
  · exact CurrencyPair.normal_of_ofText? (s := "USDT/USD") (by decide +kernel)
  · exact CurrencyPair.normal_of_ofText? (s := "USDT/ETH") (by decide +kernel)

theorem standardFeedChain_smallFeeds :
    (standardFeedChain .small smallFeeds).map (fun out ↦ out.1.map Feed.tickerText) =
      .ok ["ETH/USD", "USDT/USD"] := by
  -- The sorts are replaced by insertion, which can be run on closed lists.
  simp only [standardFeedChain, feedStages, List.map_cons, List.map_nil, Stage.chain,
    resolveCmcConflicts, references, resolveProviderConflicts, topFeeds, splitTop,
    Feed.sortByRank_eq_insertionSort, Feed.sortCanonical_eq_insertionSort]
  decide +kernel

/-- The small feeds are settled in dollars. -/
theorem settled_smallFeeds :
    ∃ kept log, standardFeedChain .small smallFeeds = .ok (kept, log) ∧
      kept.map Feed.tickerText = ["ETH/USD", "USDT/USD"] ∧ Settled .small smallFeeds kept := by
  have hkept := standardFeedChain_smallFeeds
  cases hrun : standardFeedChain .small smallFeeds with
  | error e =>
    rw [hrun] at hkept
    cases hkept
  | ok out =>
    rw [hrun] at hkept
    obtain ⟨kept, log⟩ := out
    exact ⟨kept, log, rfl, Except.ok.inj hkept,
      settled_of_standardFeedChain Config.isDecoded_small Config.validate_small
        (fun f hf ↦ (normal_smallFeeds f hf).valid) hrun⟩

theorem standardFeedChain_stableFeeds :
    (standardFeedChain .small (stableFeeds "usd")).map (fun out ↦ out.1.map Feed.pair) =
      .ok [⟨"USD", "USD"⟩, ⟨"USDT", "USD"⟩] := by
  simp only [standardFeedChain, feedStages, List.map_cons, List.map_nil, Stage.chain,
    resolveCmcConflicts, references, resolveProviderConflicts, topFeeds, splitTop,
    Feed.sortByRank_eq_insertionSort, Feed.sortCanonical_eq_insertionSort]
  decide +kernel

/-- A feed with a valid pair in lower case is taken for the price of one symbol in another until its
base is put in upper case, and is kept as the price of a symbol in itself. -/
theorem exists_base_eq_quote_of_standardFeedChain :
    Config.small.IsDecoded ∧ Config.small.validate = .ok () ∧
      (∀ f ∈ stableFeeds "usd", f.pair.Valid) ∧
      ∃ kept log, standardFeedChain .small (stableFeeds "usd") = .ok (kept, log) ∧
        ∃ f ∈ kept, f.pair.base = f.pair.quote := by
  have hvalid : ∀ f ∈ stableFeeds "usd", f.pair.Valid := by
    simp only [← CurrencyPair.isValid_iff]
    decide
  obtain ⟨⟨kept, log⟩, hrun, hkept⟩ := map_eq_ok.1 standardFeedChain_stableFeeds
  have hmem : (⟨"USD", "USD"⟩ : CurrencyPair) ∈ kept.map Feed.pair := by
    rw [hkept]
    exact List.mem_cons_self
  obtain ⟨f, hf, hpair⟩ := List.mem_map.1 hmem
  refine ⟨Config.isDecoded_small, Config.validate_small, hvalid, kept, log, hrun, f, hf, ?_⟩
  rw [hpair]

end OracleMarkets
