import OracleMarkets.Proofs.CurrencyPair
import OracleMarkets.Proofs.SortedMap
import OracleMarkets.Proofs.Stage.Restate

/-!
# Prices at mean prices

`normalize` tells prices at mean prices over the feeds that come in.  A feed of a normalizer counts
there with the price that it came with, even if the pass gives it another one; so what becomes of a
feed depends on that feed and on the list as it was, and the pass is a map over the list unless some
feed makes it fail.
-/

namespace OracleMarkets

variable {c : Config} {feeds : List Feed}

/-! ## Means -/

/-- The sum of the prices from left to right, divided by their number. -/
def meanPrice (feeds : List Feed) : Float :=
  (feeds.map (·.referencePrice)).foldl (· + ·) 0.0 / Float.ofNat feeds.length

/-- A ticker has a mean price if some feed has the ticker. -/
theorem get?_averagePrices (feeds : List Feed) (ticker : String) :
    (averagePrices feeds).get? ticker =
      if ∃ g ∈ feeds, g.tickerText = ticker then
        some (meanPrice (feeds.filter fun g ↦ g.tickerText = ticker))
      else none := by
  have hgroup : feeds.filter (fun g ↦ g.tickerText = ticker) = [] ↔
      ¬∃ g ∈ feeds, g.tickerText = ticker := by
    simp only [List.filter_eq_nil_iff, decide_eq_true_eq, not_exists, not_and]
  rw [averagePrices, SortedMap.get?_mapValues, SortedMap.get?_groupBy]
  by_cases h : ∃ g ∈ feeds, g.tickerText = ticker
  · rw [if_pos h, if_neg (mt hgroup.1 (not_not_intro h)), Option.map_some, meanPrice,
      List.foldl_map]
  · rw [if_neg h, if_pos (hgroup.2 h), Option.map_none]

/-! ## One feed -/

/-- What the pass fails with for a feed: the quote of the feed has no settings, or no feed has the
pair by which the quote is normalized. -/
def unpriced? (c : Config) (feeds : List Feed) (f : Feed) : Option PipelineError :=
  if (c.quote? f.pair.quote).isNone then some (.missingQuoteConfig f.pair.quote)
  else (c.normalizer? f.pair.quote).bind fun n ↦
    if ∃ g ∈ feeds, g.tickerText = n.text then none else some (.adjustmentPriceUnavailable n.text)

def repriced (c : Config) (feeds : List Feed) (f : Feed) : Feed :=
  match c.normalizer? f.pair.quote with
  | none => f
  | some n =>
    { f with
      ticker := { f.ticker with pair := .ofSymbols f.pair.base n.quote }
      provider := { f.provider with normalizeBy := some n }
      referencePrice :=
        f.referencePrice * meanPrice (feeds.filter fun g ↦ g.tickerText = n.text) }

/-- Nothing is wrong with a feed if its quote has settings and some feed has its normalizer. -/
theorem unpriced?_eq_none_iff {f : Feed} :
    unpriced? c feeds f = none ↔ (c.quote? f.pair.quote).isSome ∧
      ∀ n, c.normalizer? f.pair.quote = some n → ∃ g ∈ feeds, g.tickerText = n.text := by
  rw [unpriced?]
  cases hs : c.quote? f.pair.quote with
  | none => simp
  | some s =>
    cases hn : c.normalizer? f.pair.quote with
    | none => simp
    | some n => simp

/-- The step of a feed at the mean prices of the feeds. -/
theorem normalizeFeed_averagePrices (c : Config) (feeds : List Feed) (f : Feed) :
    normalizeFeed c (averagePrices feeds) f =
      (unpriced? c feeds f).elim (.ok (repriced c feeds f)) .error := by
  rw [normalizeFeed, unpriced?, repriced, Config.normalizer?]
  cases hs : c.quote? f.pair.quote with
  | none => rfl
  | some s =>
    simp only [Option.bind_some, Option.isNone_some, Bool.false_eq_true, if_false]
    cases hn : s.normalizeBy with
    | none => rfl
    | some n =>
      dsimp only
      rw [get?_averagePrices, Option.bind_some]
      by_cases h : ∃ g ∈ feeds, g.tickerText = n.text
      · rw [if_pos h, if_pos h]
        rfl
      · rw [if_neg h, if_neg h]
        rfl

/-- The base of a feed stays exactly if its quote is not normalized or the base is trimmed and in
upper case. -/
theorem base_repriced_eq_iff {f : Feed} :
    (repriced c feeds f).pair.base = f.pair.base ↔
      c.normalizer? f.pair.quote = none ∨ Text.upper (Text.trim f.pair.base) = f.pair.base := by
  rw [repriced]
  split
  · next hn => exact iff_of_true rfl (.inl hn)
  · next n hn =>
    rw [hn, or_iff_right nofun]
    rfl

/-! ## All feeds -/

/-- The pass fails with what is wrong with the first feed with which something is wrong. -/
theorem normalize_eq (c : Config) (feeds : List Feed) :
    normalize c feeds = (feeds.findSome? (unpriced? c feeds)).elim
      (.ok (feeds.map (repriced c feeds), ∅)) .error := by
  rw [normalize, mapM_eq_elim_findSome? (normalizeFeed_averagePrices c feeds)]
  cases feeds.findSome? (unpriced? c feeds) <;> rfl

/-- The pass succeeds exactly if the quote of every feed has settings and every normalizer of such a
quote has a feed.  It then makes something of every feed, in the order of the list and at the mean
prices of that list.  A feed whose quote is not normalized stays as it is; of any other feed, the
pair, the normalizer and the price change, and nothing else.  The new pair has the quote of the
normalizer and the base of the feed, both trimmed and in upper case, so the base stays as it is
exactly if it has this form. -/
theorem normalize_pointwise (c : Config) (feeds : List Feed) :
    ((∃ kept log, normalize c feeds = .ok (kept, log)) ↔
      ∀ f ∈ feeds, (c.quote? f.pair.quote).isSome ∧
        ∀ n, c.normalizer? f.pair.quote = some n → ∃ g ∈ feeds, g.tickerText = n.text) ∧
    (∀ kept log, normalize c feeds = .ok (kept, log) →
      kept = feeds.map (repriced c feeds) ∧ log = ∅) ∧
    ∀ f, (repriced c feeds f).pair.base = f.pair.base ↔
      c.normalizer? f.pair.quote = none ∨ Text.upper (Text.trim f.pair.base) = f.pair.base := by
  refine ⟨?_, ?_, fun f ↦ base_repriced_eq_iff⟩
  · simp only [← unpriced?_eq_none_iff, ← List.findSome?_eq_none_iff, normalize_eq]
    cases feeds.findSome? (unpriced? c feeds) with
    | none => simp
    | some e => simp
  · intro kept log hrun
    rw [normalize_eq] at hrun
    cases hfault : feeds.findSome? (unpriced? c feeds) with
    | none =>
      rw [hfault] at hrun
      cases hrun
      exact ⟨rfl, rfl⟩
    | some e =>
      rw [hfault] at hrun
      cases hrun

/-- A feed with a valid pair in lower case gets another base. -/
theorem exists_recased_base :
    (∀ f ∈ stableFeeds "btc", f.pair.Valid) ∧
      ∃ kept log, normalize .small (stableFeeds "btc") = .ok (kept, log) ∧
        (stableFeeds "btc").map (·.pair) = [⟨"USDT", "USD"⟩, ⟨"btc", "USDT"⟩] ∧
        kept.map (·.pair) = [⟨"USDT", "USD"⟩, ⟨"BTC", "USD"⟩] := by
  have hvalid : ∀ f ∈ stableFeeds "btc", f.pair.Valid := by
    simp only [← CurrencyPair.isValid_iff]
    decide
  have hrun : (normalize .small (stableFeeds "btc")).map (fun out ↦ out.1.map (·.pair)) =
      .ok [⟨"USDT", "USD"⟩, ⟨"BTC", "USD"⟩] := by
    decide +kernel
  obtain ⟨⟨kept, log⟩, hkept, hpairs⟩ := map_eq_ok.1 hrun
  exact ⟨hvalid, kept, log, hkept, rfl, hpairs⟩

end OracleMarkets
