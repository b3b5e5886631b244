import OracleMarkets.Proofs.Config
import OracleMarkets.Proofs.Stage.Rekey
import OracleMarkets.Stage.Standard

/-!
# What the stages over a market map leave

Each stage is told market by market: what is left at a key, and of which market of the map before it
is made.  The whole chain emits a market exactly as the stages in turn make it of one market of the
map that it starts from (`Emitted`), if no market is overridden.  None of the stages fails, since
the tickers under which a consistent configuration disables providers can be read.
-/

namespace OracleMarkets

variable {c : Config} {P : String → Market → Prop} {E : PipelineError → Prop}

open Stage (Meets)

/-! ## Disabled providers -/

/-- Whether an entry takes the venue `name` out of the market at `key`. -/
def disablesAt (key name : String) (e : String × List String) : Bool :=
  match CurrencyPair.parse e.1 with
  | .ok pair => pair.text = key && e.2.contains name
  | .error _ => false

/-- Whether the configuration takes the venue `name` out of the market at `key`. -/
def Config.disables (c : Config) (key name : String) : Bool :=
  c.disabledProviders.toList.any (disablesAt key name)

/-- A venue is taken out exactly if an entry for the market names it. -/
theorem Config.disables_iff {key name : String} :
    c.disables key name = true ↔ ∃ e ∈ c.disabledProviders.toList, ∃ pair,
      CurrencyPair.parse e.1 = .ok pair ∧ pair.text = key ∧ name ∈ e.2 := by
  rw [disables, List.any_eq_true]
  refine exists_congr fun e ↦ and_congr_right fun _ ↦ ?_
  rw [disablesAt]
  cases CurrencyPair.parse e.1 with
  | error cause => simp
  | ok pair => simp

/-- The market without the providers of some venues. -/
def Market.without (gone : String → Bool) (m : Market) : Market :=
  { m with providers := m.providers.filter fun p ↦ !gone p.name }

theorem Market.without_without (gone more : String → Bool) (m : Market) :
    (m.without gone).without more = m.without fun name ↦ gone name || more name := by
  rw [without, without, without, List.filter_filter]
  congr 2
  funext p
  cases gone p.name <;> cases more p.name <;> rfl

theorem Market.without_eq_self {gone : String → Bool} {m : Market} (h : ∀ name, gone name = false) :
    m.without gone = m := by
  rw [without, List.filter_eq_self.2 fun p _ ↦ by rw [h]; rfl]

@[simp] theorem Market.providerNames_without (gone : String → Bool) (m : Market) :
    (m.without gone).providerNames = m.providerNames.filter fun name ↦ !gone name := by
  simp [without, providerNames, List.filter_map, Function.comp_def]

/-- Of the market of the ticker the named providers are taken out, and other markets stay. -/
theorem get?_disableAt (ticker : String) (names : List String) (state : MarketMap × ExclusionLog)
    (key : String) :
    (disableAt ticker names state).1.get? key =
      (state.1.get? key).map (·.without fun name ↦ ticker = key && names.contains name) := by
  have hother : ∀ hne : ticker ≠ key, (state.1.get? key).map
      (·.without fun name ↦ ticker = key && names.contains name) = state.1.get? key := by
    intro hne
    cases state.1.get? key with
    | none => rfl
    | some market => exact congrArg some (Market.without_eq_self fun name ↦ by simp [hne])
  unfold disableAt
  split
  · next hnone =>
    by_cases hkey : ticker = key
    · rw [← hkey, hnone]
      rfl
    · rw [hother hkey]
  · next market hmarket =>
    dsimp only
    rw [SortedMap.get?_insert]
    by_cases hkey : ticker = key
    · subst hkey
      rw [if_pos rfl, hmarket]
      simp [Market.without]
    · rw [if_neg (Ne.symm hkey), hother hkey]

/-- One entry of disabled providers after another. -/
def disableStep (state : MarketMap × ExclusionLog) (e : String × List String) :
    Except PipelineError (MarketMap × ExclusionLog) := do
  let pair ← liftValidation (CurrencyPair.parse e.1)
  return disableAt pair.text e.2 state

theorem excludeDisabledProviders_eq (m : MarketMap) :
    excludeDisabledProviders c m = c.disabledProviders.toList.foldlM disableStep (m, ∅) := rfl

theorem get?_disableStep {state next : MarketMap × ExclusionLog} {e : String × List String}
    (h : disableStep state e = .ok next) (key : String) :
    next.1.get? key = (state.1.get? key).map (·.without fun name ↦ disablesAt key name e) := by
  obtain ⟨pair, hpair, h⟩ := bind_eq_ok.1 h
  cases h
  rw [get?_disableAt]
  simp only [disablesAt, liftValidation_eq_ok.1 hpair]

/-- The providers that are left after some entries are those that none of them takes out. -/
theorem get?_foldlM_disableStep {l : List (String × List String)}
    {state next : MarketMap × ExclusionLog} (h : l.foldlM disableStep state = .ok next)
    (key : String) :
    next.1.get? key =
      (state.1.get? key).map (·.without fun name ↦ l.any (disablesAt key name)) := by
  induction l generalizing state with
  | nil =>
    rw [← Except.ok.inj h]
    cases state.1.get? key with
    | none => rfl
    | some market => exact congrArg some (Market.without_eq_self fun name ↦ rfl).symm
  | cons e l ih =>
    rw [List.foldlM_cons] at h
    obtain ⟨state', hstate', h⟩ := bind_eq_ok.1 h
    simp only [ih h, get?_disableStep hstate', Option.map_map, Function.comp_def,
      Market.without_without, List.any_cons]

/-- Taking providers out of markets does not fail if the tickers of all entries can be read. -/
theorem exists_excludeDisabledProviders_of_parse
    (h : ∀ e ∈ c.disabledProviders.toList, ∃ pair, CurrencyPair.parse e.1 = .ok pair)
    (m : MarketMap) : ∃ out, excludeDisabledProviders c m = .ok out := by
  rw [excludeDisabledProviders_eq]
  refine exists_foldlM_eq_ok (fun e he state ↦ ?_) (m, ∅)
  obtain ⟨pair, hpair⟩ := h e he
  refine ⟨disableAt pair.text e.2 state, ?_⟩
  rw [disableStep, hpair]
  rfl

theorem exists_excludeDisabledProviders_eq_ok (hc : c.validate = .ok ()) (m : MarketMap) :
    ∃ out, excludeDisabledProviders c m = .ok out :=
  exists_excludeDisabledProviders_of_parse (fun _ he ↦ Config.exists_parse_of_validate hc he) m

/-- Every market is left without its disabled providers. -/
theorem excludeDisabledProviders_meets (hc : c.validate = .ok ()) :
    Meets c excludeDisabledProviders (MarketMap.Forall P)
      (MarketMap.Forall fun key market ↦ ∃ market₀, P key market₀ ∧
        market = market₀.without (c.disables key)) E := by
  refine .of_ok fun m hm ↦ ?_
  obtain ⟨⟨left, log⟩, hrun⟩ := exists_excludeDisabledProviders_eq_ok hc m
  refine ⟨left, log, hrun, fun key market hmarket ↦ ?_⟩
  rw [get?_foldlM_disableStep hrun, Option.map_eq_some_iff] at hmarket
  obtain ⟨market₀, hmarket₀, rfl⟩ := hmarket
  exact ⟨market₀, hm key market₀ hmarket₀, rfl⟩

/-! ## The other stages -/

theorem forall_siftMarkets {m : MarketMap} (verdict : Market → Option String) (hm : m.Forall P) :
    (siftMarkets verdict m).1.Forall fun key market ↦ P key market ∧ verdict market = none := by
  intro key market hmarket
  rw [siftMarkets, SortedMap.get?_filter, Option.filter_eq_some_iff, Option.isNone_iff_eq_none]
    at hmarket
  exact ⟨hm key market hmarket.1, hmarket.2⟩

/-- Every market that is left is one that the lists of pairs leave in. -/
theorem pruneMarkets_meets :
    Meets c pruneMarkets (MarketMap.Forall P)
      (MarketMap.Forall fun key market ↦ P key market ∧ unlisted? c market = none) E :=
  .of_ok fun _ hm ↦ ⟨_, _, rfl, forall_siftMarkets _ hm⟩

theorem pruneInsufficientMarkets_meets :
    Meets c pruneInsufficientMarkets (MarketMap.Forall P)
      (MarketMap.Forall fun key market ↦ P key market ∧ insufficient? c market = none) E :=
  .of_ok fun _ hm ↦ ⟨_, _, rfl, forall_siftMarkets _ hm⟩

theorem forall_mapValues {m : MarketMap} (f : Market → Market) (hm : m.Forall P) :
    MarketMap.Forall (fun key market ↦ ∃ market₀, P key market₀ ∧ market = f market₀)
      (m.mapValues fun _ market ↦ f market) := by
  intro key market hmarket
  rw [SortedMap.get?_mapValues, Option.map_eq_some_iff] at hmarket
  obtain ⟨market₀, hmarket₀, rfl⟩ := hmarket
  exact ⟨market₀, hm key market₀ hmarket₀, rfl⟩

/-- The market in use, if the configuration says so of all. -/
def Market.enabledBy (c : Config) (m : Market) : Market :=
  { m with ticker := { m.ticker with enabled := c.enableAll || m.ticker.enabled } }

theorem enableMarkets_eq (m : MarketMap) :
    enableMarkets c m = .ok (m.mapValues fun _ market ↦ market.enabledBy c, ∅) := by
  cases h : c.enableAll <;> simp [enableMarkets, Market.enabledBy, h]

theorem enableMarkets_meets :
    Meets c enableMarkets (MarketMap.Forall P)
      (MarketMap.Forall fun key market ↦ ∃ market₀, P key market₀ ∧
        market = market₀.enabledBy c) E :=
  .of_ok fun m hm ↦ ⟨_, _, enableMarkets_eq m, forall_mapValues (Market.enabledBy c) hm⟩

/-- The market with the number of providers that the configuration asks of all, if it does. -/
def Market.forcedBy (c : Config) (m : Market) : Market :=
  { m with
    ticker := { m.ticker with
      minProviderCount :=
        if 0 < c.minProviderCountOverride then c.minProviderCountOverride
        else m.ticker.minProviderCount } }

theorem overrideMinProviderCount_eq (m : MarketMap) :
    overrideMinProviderCount c m = .ok (m.mapValues fun _ market ↦ market.forcedBy c, ∅) := by
  by_cases h : 0 < c.minProviderCountOverride <;>
    simp [overrideMinProviderCount, Market.forcedBy, h]

theorem overrideMinProviderCount_meets :
    Meets c overrideMinProviderCount (MarketMap.Forall P)
      (MarketMap.Forall fun key market ↦ ∃ market₀, P key market₀ ∧
        market = market₀.forcedBy c) E :=
  .of_ok fun m hm ↦ ⟨_, _, overrideMinProviderCount_eq m, forall_mapValues (Market.forcedBy c) hm⟩

/-- Without overriding markets, nothing is overridden. -/
theorem overrideMarkets_of_empty (hc : c.overrides = ∅) (m : MarketMap) :
    overrideMarkets c m = .ok (m, ∅) := by
  rw [overrideMarkets, hc]
  rfl

/-! ## The standard chain -/

/-- The stages of the standard chain before the one that overrides markets. -/
def stagesBeforeOverrides : List MarketStage :=
  [pruneMarkets, excludeDisabledProviders, enableMarkets, rekeyDefiMarkets,
    pruneInsufficientMarkets, overrideMinProviderCount]

/-- Overriding markets is the last stage. -/
theorem standardMarketChain_eq :
    standardMarketChain = Stage.chain (stagesBeforeOverrides ++ [overrideMarkets]) := rfl

/-- The standard chain of a consistent configuration does not fail. -/
theorem exists_standardMarketChain_eq_ok (hc : c.validate = .ok ()) (m : MarketMap) :
    ∃ out, standardMarketChain c m = .ok out := by
  refine Stage.exists_chain_eq_ok ?_ m
  simp only [marketStages, List.map_cons, List.map_nil, List.forall_mem_cons]
  exact ⟨fun m ↦ ⟨_, rfl⟩, fun m ↦ exists_excludeDisabledProviders_eq_ok hc m, fun m ↦ ⟨_, rfl⟩,
    fun m ↦ ⟨_, rfl⟩, fun m ↦ ⟨_, rfl⟩, fun m ↦ ⟨_, rfl⟩, fun m ↦ ⟨_, rfl⟩, List.forall_mem_nil _⟩

/-- The market at `key` comes to re-keying: no list of pairs leaves it out, it has no disabled
providers, and it is in use if all are. -/
inductive Prepared (c : Config) (m₀ : MarketMap) (key : String) : Market → Prop
  | intro {market₀ : Market} (found : m₀.get? key = some market₀)
    (listed : unlisted? c market₀ = none) :
    Prepared c m₀ key ((market₀.without (c.disables key)).enabledBy c)

/-- The chain makes `market` at `key` of one market of `m₀`. -/
inductive Emitted (c : Config) (m₀ : MarketMap) (key : String) : Market → Prop
  | intro {renames : SortedMap CurrencyPair CurrencyPair} {key₀ : String} {market₀ market : Market}
    (prepared : Prepared c m₀ key₀ market₀) (renamed : Renames c (Prepared c m₀) renames)
    (rekeyed : Rekeyed c renames key₀ market₀ key market)
    (sufficient : insufficient? c market = none) : Emitted c m₀ key (market.forcedBy c)

/-- Stages after those that prepare, move and count markets may rely on what these emit. -/
theorem chain_meets_of_emitted (hc : c.validate = .ok ()) (m₀ : MarketMap) {rest : List MarketStage}
    {Q : MarketMap → Prop}
    (hrest : Meets c (Stage.chain rest) (MarketMap.Forall (Emitted c m₀)) Q E) :
    Meets c (Stage.chain (stagesBeforeOverrides ++ rest)) (· = m₀) Q E := by
  -- The first three stages prepare a market, the fourth may move it, the others leave its place.
  refine ((pruneMarkets_meets (P := fun key market ↦ m₀.get? key = some market)).imp
    (S := (· = m₀)) (by rintro m rfl key market hmarket; exact hmarket) fun _ h ↦ h).cons ?_
  refine (excludeDisabledProviders_meets hc).cons ?_
  refine (enableMarkets_meets.imp (T := MarketMap.Forall (Prepared c m₀)) (fun _ h ↦ h) ?_).cons ?_
  · intro m hm key market hmarket
    obtain ⟨_, ⟨market₀, ⟨hfound, hlisted⟩, rfl⟩, rfl⟩ := hm key market hmarket
    exact .intro hfound hlisted
  refine rekeyDefiMarkets_meets.cons ?_
  refine pruneInsufficientMarkets_meets.cons ?_
  refine (overrideMinProviderCount_meets.imp (T := MarketMap.Forall (Emitted c m₀))
    (fun _ h ↦ h) ?_).cons hrest
  intro m hm key market hmarket
  obtain ⟨_, ⟨⟨_, _, _, hrenamed, hprepared, hrekeyed⟩, hsufficient⟩, rfl⟩ := hm key market hmarket
  exact .intro hprepared hrenamed hrekeyed hsufficient

/-- Without overriding markets, the standard chain makes each market of one market before it. -/
theorem standardMarketChain_meets (hc : c.validate = .ok ()) (hov : c.overrides = ∅)
    (m₀ : MarketMap) :
    Meets c standardMarketChain (· = m₀) (MarketMap.Forall (Emitted c m₀)) E := by
  rw [standardMarketChain_eq]
  apply chain_meets_of_emitted hc m₀
  exact Meets.cons (.of_ok fun m hm ↦ ⟨m, ∅, overrideMarkets_of_empty hov m, hm⟩) Meets.nil

/-- Whether or not markets are overridden, the chain makes each market of one market before it, or
it is an overriding one under its ticker. -/
theorem emitted_or_mem_of_standardMarketChain (hc : c.validate = .ok ()) {m₀ m : MarketMap}
    {exclusions : ExclusionLog} (hrun : standardMarketChain c m₀ = .ok (m, exclusions)) :
    m.Forall fun key market ↦
      Emitted c m₀ key market ∨ (market ∈ c.overrides.values ∧ key = market.tickerText) := by
  have hmeets : Meets c standardMarketChain (· = m₀) (MarketMap.Forall fun key market ↦
      Emitted c m₀ key market ∨ (market ∈ c.overrides.values ∧ key = market.tickerText))
      fun _ ↦ True := by
    rw [standardMarketChain_eq]
    apply chain_meets_of_emitted hc m₀
    refine Meets.cons (.of_ok fun m hm ↦ ⟨_, _, rfl, fun key market hmarket ↦ ?_⟩) Meets.nil
    rcases MarketMap.get?_foldl_insertMarket c.overrides.values m key with
      ⟨other, hother, htext, hget⟩ | ⟨-, hget⟩
    · rw [hget] at hmarket
      cases hmarket
      exact .inr ⟨hother, htext.symm⟩
    · rw [hget] at hmarket
      exact .inl (hm key market hmarket)
  exact hmeets.ok rfl hrun

/-- Whatever the standard chain emits is made of the markets before it, unless markets are
overridden. -/
theorem emitted_of_standardMarketChain (hc : c.validate = .ok ()) (hov : c.overrides = ∅)
    {m₀ m : MarketMap} {exclusions : ExclusionLog}
    (hrun : standardMarketChain c m₀ = .ok (m, exclusions)) : m.Forall (Emitted c m₀) :=
  (standardMarketChain_meets (E := fun _ ↦ True) hc hov m₀).ok rfl hrun

/-! ## What a market is made of -/

/-- `market` at `key` is what the chain makes of `market₀` at `key₀`. -/
structure Market.Becomes (c : Config) (key₀ : String) (market₀ : Market) (key : String)
    (market : Market) : Prop where
  listed : unlisted? c market₀ = none
  decimals : market.ticker.decimals = market₀.ticker.decimals
  enabled : market.ticker.enabled = (c.enableAll || market₀.ticker.enabled)
  /-- The market asks for as many providers as before if none is told to ask for others, and has
  them. -/
  minProviderCount : c.minProviderCountOverride = 0 →
    market.ticker.minProviderCount = market₀.ticker.minProviderCount ∧
      market.ticker.minProviderCount.toNat ≤ market.providers.length
  providerNames : market.providerNames =
    market₀.providerNames.filter fun name ↦ !c.disables key₀ name
  /-- Only a market of one on-chain venue moves, namely to the pair that the venue tells. -/
  place : (key = key₀ ∧ market.ticker.pair = market₀.ticker.pair) ∨
    (key = market.tickerText ∧ (market₀.without (c.disables key₀)).MovesTo c market.ticker.pair)

theorem le_length_of_insufficient? {market : Market} (h : insufficient? c market = none) :
    market.ticker.minProviderCount.toNat ≤ market.providers.length := by
  unfold insufficient? at h
  dsimp only at h
  split at h
  · cases h
  · next hcounted =>
    calc market.ticker.minProviderCount.toNat
        ≤ (market.providerNames.filter fun name ↦ !c.isSupplemental name).length :=
          Nat.not_lt.1 hcounted
      _ ≤ market.providerNames.length := List.length_filter_le _ _
      _ = market.providers.length := List.length_map _

/-- Every market that the chain emits is made of one market before it. -/
theorem Emitted.exists_becomes {m₀ : MarketMap} {key : String} {market : Market}
    (h : Emitted c m₀ key market) :
    ∃ key₀ market₀, m₀.get? key₀ = some market₀ ∧ market₀.Becomes c key₀ key market := by
  obtain @⟨renames, key₀, _, left, @⟨market₀, hfound, hlisted⟩, -, hrekeyed, hsufficient⟩ := h
  have hdecimals : left.ticker.decimals = market₀.ticker.decimals := by
    rw [hrekeyed.ticker_eq]
    rfl
  have henabled : left.ticker.enabled = (c.enableAll || market₀.ticker.enabled) := by
    rw [hrekeyed.ticker_eq]
    rfl
  have hcount : left.ticker.minProviderCount = market₀.ticker.minProviderCount := by
    rw [hrekeyed.ticker_eq]
    rfl
  refine ⟨key₀, market₀, hfound, hlisted, hdecimals, henabled, fun hc ↦ ?_, ?_, hrekeyed.place⟩
  · have hforced : left.forcedBy c = left := by simp [Market.forcedBy, hc]
    rw [hforced]
    exact ⟨hcount, le_length_of_insufficient? hsufficient⟩
  · exact hrekeyed.providerNames_eq.trans (Market.providerNames_without _ market₀)

/-- Without on-chain venues, every market that the chain emits stands where it stood, and no
provider of it is new. -/
theorem Emitted.narrows (hdefi : ∀ name, c.isDefi name = false) {m₀ : MarketMap} {key : String}
    {market : Market} (h : Emitted c m₀ key market) :
    ∃ market₀, m₀.get? key = some market₀ ∧ market.ticker.pair = market₀.ticker.pair ∧
      market.providers.Sublist market₀.providers := by
  obtain @⟨renames, key₀, _, left, @⟨market₀, hfound, -⟩, hrenamed, hrekeyed, -⟩ := h
  cases hrekeyed with
  | moved hmoves => exact absurd hmoves (Market.not_movesTo hdefi)
  | kept =>
    refine ⟨market₀, hfound, rfl, ?_⟩
    rw [Market.follow_eq_self (hrenamed.get?_eq_none hdefi)]
    exact List.filter_sublist

end OracleMarkets
