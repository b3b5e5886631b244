import OracleMarkets.Proofs.Config
import OracleMarkets.Proofs.Stage.Basic
import OracleMarkets.Stage.Restate

/-!
# How a feed is restated

A feed that is kept by `invertOrDrop` has a quote that markets may have, and does not settle as the
price of a symbol in itself.  `normalize` leaves a feed as it is if its quote is not normalized, and
otherwise rescales it by the pair by which its quote is.  It fails only if no feed tells the price
of such a pair.
-/

namespace OracleMarkets

variable {c : Config} {E : PipelineError → Prop}

open Stage (Meets)

/-! ## Turning feeds over -/

/-- `h` is the feed `g` as it is kept by `invertOrDrop`. -/
structure RestatesTo (c : Config) (g h : Feed) : Prop where
  restate : restate? c g = some h
  /-- `h` does not settle as the price of a symbol in itself. -/
  settles : h.pair.base ≠ c.settledQuote h.pair.quote

/-- A feed is restated as itself if markets may have its quote, and otherwise turned over, if they
may have its base. -/
theorem restate?_cases {g h : Feed} (hr : restate? c g = some h) :
    (c.isTargetQuote g.pair.quote = true ∧ h = g) ∨
      (c.isTargetQuote g.pair.quote = false ∧ c.isTargetQuote g.pair.base = true ∧
        h = { g.inverted with provider := { g.provider with invert := true } }) := by
  unfold restate? at hr
  split at hr
  · next hq => exact .inl ⟨hq, (Option.some.inj hr).symm⟩
  · next hq =>
    split at hr
    · next hb => exact .inr ⟨Bool.eq_false_iff.2 hq, hb, (Option.some.inj hr).symm⟩
    · cases hr

theorem isTargetQuote_of_restate? {g h : Feed} (hr : restate? c g = some h) :
    c.isTargetQuote h.pair.quote = true := by
  rcases restate?_cases hr with ⟨hq, rfl⟩ | ⟨-, hb, rfl⟩
  · exact hq
  · exact hb

theorem RestatesTo.venue_eq {g h : Feed} (hgh : RestatesTo c g h) : h.venue = g.venue := by
  rcases restate?_cases hgh.restate with ⟨-, rfl⟩ | ⟨-, -, rfl⟩
  · rfl
  · rfl

theorem normal_of_restate? {g h : Feed} (hr : restate? c g = some h) (hg : g.pair.Normal) :
    h.pair.Normal := by
  rcases restate?_cases hr with ⟨-, rfl⟩ | ⟨-, -, rfl⟩
  · exact hg
  · exact hg.inverted

theorem valid_of_restate? {g h : Feed} (hr : restate? c g = some h) (hg : g.pair.Valid) :
    h.pair.Valid := by
  rcases restate?_cases hr with ⟨-, rfl⟩ | ⟨-, -, rfl⟩
  · exact hg
  · exact hg.inverted

/-- A feed is left without a reason exactly if it is restated as a price that does not settle in its
own base. -/
theorem judgeRestated_eq_none_iff {g h : Feed} :
    judgeRestated c g = (h, none) ↔ RestatesTo c g h := by
  unfold judgeRestated
  split
  · next hr =>
    refine ⟨fun hj ↦ ?_, fun hgh ↦ ?_⟩
    · cases hj
    · rw [hgh.restate] at hr
      cases hr
  · next h' hr =>
    dsimp only
    split
    · next heq =>
      refine ⟨fun hj ↦ ?_, fun hgh ↦ ?_⟩
      · cases hj
      · rw [hgh.restate] at hr
        cases hr
        exact absurd heq hgh.settles
    · next hne =>
      refine ⟨fun hj ↦ ?_, fun hgh ↦ ?_⟩
      · cases hj
        exact ⟨hr, hne⟩
      · rw [hgh.restate] at hr
        cases hr
        rfl

/-- Every feed that is left is a restated one. -/
theorem invertOrDrop_meets (input : List Feed) :
    Meets c invertOrDrop (fun feeds ↦ feeds = input)
      (fun feeds ↦ ∀ h ∈ feeds, ∃ g ∈ input, RestatesTo c g h) E := by
  refine .of_ok fun feeds hin ↦ ⟨_, _, rfl, fun h hh ↦ ?_⟩
  subst hin
  obtain ⟨g, hg, hgh⟩ := List.mem_map.1 (mem_sift.1 hh)
  exact ⟨g, hg, judgeRestated_eq_none_iff.1 hgh⟩

/-! ## Normalizing prices -/

@[simp] theorem Feed.venue_rescale (f : Feed) (n : CurrencyPair) (price : Float) :
    (f.rescale n price).venue = f.venue := by
  simp only [Feed.venue, Feed.rescale]

@[simp] theorem Feed.normalizeBy_rescale (f : Feed) (n : CurrencyPair) (price : Float) :
    (f.rescale n price).provider.normalizeBy = some n := by
  simp only [Feed.rescale]

/-- `f` is the feed `h` in the quote that its own quote is normalized to. -/
inductive RequotesTo (c : Config) (h : Feed) : Feed → Prop
  | same (hn : c.normalizer? h.pair.quote = none) : RequotesTo c h h
  | rescaled {n : CurrencyPair} (price : Float) (hn : c.normalizer? h.pair.quote = some n) :
    RequotesTo c h (h.rescale n price)

/-- The pair by which some quote is normalized has no feed. -/
def IsUnavailable (c : Config) (e : PipelineError) : Prop :=
  ∃ quote n, c.normalizer? quote = some n ∧ e = .adjustmentPriceUnavailable n.text

theorem requotesTo_of_normalizeFeed {averages : SortedMap String Float} {h f : Feed}
    (hf : normalizeFeed c averages h = .ok f) : RequotesTo c h f := by
  unfold normalizeFeed at hf
  split at hf
  · cases hf
  · next s hs =>
    split at hf
    · next hn =>
      cases hf
      exact .same (by rw [Config.normalizer?, hs, Option.bind_some, hn])
    · next n hn =>
      split at hf
      · cases hf
      · next price _ =>
        rw [← Except.ok.inj hf]
        exact .rescaled price (by rw [Config.normalizer?, hs, Option.bind_some, hn])

/-- A feed with a quote that markets may have lacks at most the price of another pair. -/
theorem isUnavailable_of_normalizeFeed {averages : SortedMap String Float} {h : Feed}
    {e : PipelineError} (hq : c.isTargetQuote h.pair.quote = true)
    (he : normalizeFeed c averages h = .error e) : IsUnavailable c e := by
  unfold normalizeFeed at he
  split at he
  · next hs =>
    rw [Config.isTargetQuote, SortedMap.contains, ← Config.quote?, hs] at hq
    cases hq
  · next s hs =>
    split at he
    · cases he
    · next n hn =>
      split at he
      · cases he
        exact ⟨h.pair.quote, n, by rw [Config.normalizer?, hs, Option.bind_some, hn], rfl⟩
      · cases he

/-- Normalizing tells every feed in another quote, or fails for want of a price. -/
theorem normalize_meets {R : Feed → Prop} (hR : ∀ h, R h → c.isTargetQuote h.pair.quote = true) :
    Meets c normalize (fun feeds ↦ ∀ h ∈ feeds, R h)
      (fun feeds ↦ ∀ f ∈ feeds, ∃ h, R h ∧ RequotesTo c h f) (IsUnavailable c) := by
  constructor
  · intro feeds kept log hfeeds hkept f hf
    obtain ⟨kept', hm, hkept⟩ := bind_eq_ok.1 hkept
    cases hkept
    obtain ⟨h, hh, hhf⟩ := exists_mem_of_mapM hm hf
    exact ⟨h, hfeeds h hh, requotesTo_of_normalizeFeed hhf⟩
  · intro feeds e hfeeds he
    rcases bind_eq_error.1 he with he | ⟨kept, -, he⟩
    · obtain ⟨h, hh, he⟩ := exists_eq_error_of_mapM he
      exact isUnavailable_of_normalizeFeed (hR h (hfeeds h hh)) he
    · cases he

/-- The price of a stable coin, and the price of a symbol in it. -/
def stableFeeds (base : String) : List Feed :=
  [{ Feed.ofPrice ⟨"USDT", "USD"⟩ "kraken" "USDTUSD" 1.0 with cmc := ⟨825, 0, 3, 0⟩ },
    { Feed.ofPrice ⟨base, "USDT"⟩ "kraken" (base ++ "USDT") 2.0 with cmc := ⟨1, 825, 1, 3⟩ }]

end OracleMarkets
