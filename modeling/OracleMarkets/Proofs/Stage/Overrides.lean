import OracleMarkets.Proofs.Config
import OracleMarkets.Proofs.Stage.Markets

/-!
# Overriding markets

Only the last stage of the standard chain reads the overriding markets of a configuration.  It puts
them over the markets that are there by then, each under its own ticker, which is its key in a
configuration that is accepted.  So the chain gives the overriding markets as they are, and at every
other key what it gives without them.
-/

namespace OracleMarkets

variable {c : Config}

/-! ## The stages before -/

/-- The configuration without its overriding markets. -/
def Config.withoutOverrides (c : Config) : Config := { c with overrides := ∅ }

/-- No stage before the last one reads the overriding markets. -/
theorem chain_withoutOverrides (m : MarketMap) :
    Stage.chain stagesBeforeOverrides c.withoutOverrides m =
      Stage.chain stagesBeforeOverrides c m := by
  refine Stage.chain_congr ?_ m
  simp only [stagesBeforeOverrides, List.forall_mem_cons]
  exact ⟨fun _ ↦ rfl, fun _ ↦ rfl, fun _ ↦ rfl, fun _ ↦ rfl, fun _ ↦ rfl, fun _ ↦ rfl,
    List.forall_mem_nil _⟩

/-- The standard chain puts the overriding markets over what the other stages leave. -/
theorem standardMarketChain_eq_ok_iff {m₀ m : MarketMap} {exclusions : ExclusionLog} :
    standardMarketChain c m₀ = .ok (m, exclusions) ↔ ∃ left,
      Stage.chain stagesBeforeOverrides c m₀ = .ok (left, exclusions) ∧
        m = c.overrides.values.foldl MarketMap.insertMarket left := by
  rw [standardMarketChain_eq, Stage.chain_append_eq_ok]
  constructor
  · rintro ⟨left, log, more, hleft, hm, rfl⟩
    cases hm
    exact ⟨left, hleft, rfl⟩
  · rintro ⟨left, hleft, rfl⟩
    exact ⟨left, exclusions, ∅, hleft, rfl, rfl⟩

/-! ## The markets that are overridden -/

/-- The standard chain does not fail.  Its map has every overriding market as it is, and at every
other key what the map has that it gives without them; both runs exclude the same. -/
theorem standardMarketChain_overlays (hc : c.validate = .ok ()) (m₀ : MarketMap) :
    ∃ m plain exclusions, standardMarketChain c m₀ = .ok (m, exclusions) ∧
      standardMarketChain { c with overrides := ∅ } m₀ = .ok (plain, exclusions) ∧
      ∀ key, m.get? key = (c.overrides.get? key).or (plain.get? key) := by
  obtain ⟨⟨m, exclusions⟩, hm⟩ := exists_standardMarketChain_eq_ok hc m₀
  obtain ⟨left, hleft, rfl⟩ := standardMarketChain_eq_ok_iff.1 hm
  have hplain : standardMarketChain c.withoutOverrides m₀ = .ok (left, exclusions) :=
    standardMarketChain_eq_ok_iff.2 ⟨left, (chain_withoutOverrides m₀).trans hleft, rfl⟩
  refine ⟨_, left, exclusions, hm, hplain, fun key ↦ ?_⟩
  have hkeyed := MarketMap.keyed_of_validate (Config.validate_overrides hc)
  exact hkeyed.get?_foldl_insertMarket left key

def marketOf (base : String) (venues : List String) : Market :=
  ⟨{ Ticker.ofPair ⟨base, "USD"⟩ 1 with decimals := 8 }, venues.map (.ofVenue · (base ++ "-USD"))⟩

/-- A configuration that forces two providers on every market and overrides two markets. -/
def Config.overriding : Config :=
  { standard with
    minProviderCountOverride := 2
    overrides := .ofMarkets [marketOf "BTC" ["coinbase"], marketOf "ATOM" ["kraken"]] }

/-- Two markets of two venues each. -/
def twoMarkets : MarketMap :=
  .ofMarkets [marketOf "BTC" ["kraken", "okx"], marketOf "ETH" ["kraken", "okx"]]

/-- The overriding markets are as they are set, although two providers are forced on the others. -/
theorem standardMarketChain_overlays_forced :
    Config.overriding.validate = .ok () ∧ ∃ m plain exclusions,
      standardMarketChain .overriding twoMarkets = .ok (m, exclusions) ∧
      standardMarketChain { Config.overriding with overrides := ∅ } twoMarkets =
        .ok (plain, exclusions) ∧
      m.get? "BTC/USD" = some (marketOf "BTC" ["coinbase"]) ∧
      m.get? "ATOM/USD" = some (marketOf "ATOM" ["kraken"]) ∧
      m.get? "ETH/USD" = plain.get? "ETH/USD" ∧
      (m.get? "ETH/USD").map (·.ticker.minProviderCount) = some 2 := by
  have hvalid : Config.overriding.validate = .ok () := by decide +kernel
  obtain ⟨m, plain, exclusions, hm, hplain, hget⟩ := standardMarketChain_overlays hvalid twoMarkets
  have heth : m.get? "ETH/USD" = plain.get? "ETH/USD" := hget "ETH/USD"
  have hforced : (standardMarketChain { Config.overriding with overrides := ∅ } twoMarkets).map
      (fun out ↦ (out.1.get? "ETH/USD").map (·.ticker.minProviderCount)) = .ok (some 2) := by
    decide +kernel
  rw [hplain] at hforced
  exact ⟨hvalid, m, plain, exclusions, hm, hplain, hget "BTC/USD", hget "ATOM/USD", heth,
    heth ▸ Except.ok.inj hforced⟩

end OracleMarkets
