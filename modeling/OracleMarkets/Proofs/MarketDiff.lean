import OracleMarkets.MarketDiff
import OracleMarkets.Proofs.Market

/-!
# What a difference does

A difference is told key by key: at each key, what is deployed and what is generated decide what is
deployed afterwards (`MarketDiff.get?_apply`).  So a difference converges in one step and writes
nothing that is there already.  The map it leaves may be refused only for a market in use that is
normalized by one that is not, as the flags of the two maps are mixed.
-/

namespace OracleMarkets

namespace MarketDiff

variable {o : DiffOptions} {current generated : MarketMap} {key : String}

/-! ## Candidates -/

/-- A market that comes to a deployed one is put in use or not, and is otherwise as it was
generated. -/
theorem candidate_eq (o : DiffOptions) (deployed market : Market) :
    candidate o deployed market = { market with ticker := { market.ticker with
      enabled := if o.overwriteEnabled then market.ticker.enabled
        else deployed.ticker.enabled } } := by
  unfold candidate
  split <;> rfl

@[simp] theorem tickerText_candidate (o : DiffOptions) (deployed market : Market) :
    (candidate o deployed market).tickerText = market.tickerText := by
  rw [candidate_eq]
  rfl

@[simp] theorem providers_candidate (o : DiffOptions) (deployed market : Market) :
    (candidate o deployed market).providers = market.providers := by
  rw [candidate_eq]

theorem enabled_candidate (o : DiffOptions) (deployed market : Market) :
    (candidate o deployed market).ticker.enabled =
      if o.overwriteEnabled then market.ticker.enabled else deployed.ticker.enabled := by
  rw [candidate_eq]

/-- A market that took the flag of a deployed one keeps it when it is deployed itself. -/
@[simp] theorem candidate_candidate (o : DiffOptions) (deployed market : Market) :
    candidate o (candidate o deployed market) market = candidate o deployed market := by
  unfold candidate
  split <;> rfl

@[simp] theorem candidate_self (o : DiffOptions) (market : Market) :
    candidate o market market = market := by
  unfold candidate
  split <;> rfl

/-- A market that takes over the flag of the deployed one is in order if it was. -/
theorem valid_candidate {deployed market : Market} (h : market.Valid key) :
    (candidate o deployed market).Valid key := by
  rw [candidate_eq]
  exact ⟨h.key_eq, h.pair, h.decimals, h.minProviderCount, h.enough, h.metadata, h.providers,
    h.nodup⟩

/-! ## Key by key -/

/-- The market at a key once a generated market has come to a deployed one. -/
def settled (o : DiffOptions) : Option Market → Option Market → Option Market
  | deployed, none => deployed
  | none, some market => some market
  | some deployed, some market => some (candidate o deployed market)

@[simp] theorem settled_none (o : DiffOptions) (deployed : Option Market) :
    settled o deployed none = deployed := by
  cases deployed <;> rfl

/-- Whether a generated market is in use once it has come to what is deployed in its place. -/
def isInUse (o : DiffOptions) (deployed : Option Market) (x : Market) : Bool :=
  if o.overwriteEnabled then x.ticker.enabled else (deployed.getD x).ticker.enabled

/-- A generated market comes with its ticker and providers, and is put in use or not. -/
theorem exists_settled_some (o : DiffOptions) (deployed : Option Market) (x : Market) :
    ∃ market, settled o deployed (some x) = some market ∧ market.tickerText = x.tickerText ∧
      market.providers = x.providers ∧ market.ticker.enabled = isInUse o deployed x := by
  cases deployed with
  | none => exact ⟨x, rfl, rfl, rfl, by simp [isInUse]⟩
  | some deployed =>
    exact ⟨candidate o deployed x, rfl, tickerText_candidate o deployed x,
      providers_candidate o deployed x, enabled_candidate o deployed x⟩

/-- What is settled stays so when it is generated again. -/
@[simp] theorem settled_settled (o : DiffOptions) (deployed x : Option Market) :
    settled o (settled o deployed x) x = settled o deployed x := by
  cases x with
  | none => rw [settled_none]
  | some x => cases deployed <;> simp [settled]

/-- The created markets are the generated ones at keys that are not deployed. -/
theorem mem_created_iff {market : Market} :
    market ∈ (between o current generated).created ↔
      ∃ key, generated.get? key = some market ∧ current.get? key = none := by
  simp only [between, List.mem_filterMap, Prod.exists, SortedMap.get?_eq_some_iff, created?]
  constructor
  · rintro ⟨key, x, hx, h⟩
    split at h
    · next hnone =>
      cases h
      exact ⟨key, hx, hnone⟩
    · cases h
  · rintro ⟨key, hx, hnone⟩
    exact ⟨key, market, hx, by rw [hnone]⟩

theorem mem_updated_iff {market : Market} :
    market ∈ (between o current generated).updated ↔
      ∃ key x deployed, generated.get? key = some x ∧ current.get? key = some deployed ∧
        market = candidate o deployed x ∧ market ≠ deployed := by
  simp only [between, List.mem_filterMap, Prod.exists, SortedMap.get?_eq_some_iff, updated?]
  constructor
  · rintro ⟨key, x, hx, h⟩
    split at h
    · cases h
    · next deployed hdeployed =>
      split at h
      · cases h
      · next hne =>
        cases h
        exact ⟨key, x, deployed, hx, SortedMap.get?_eq_some_iff.1 hdeployed, rfl, hne⟩
  · rintro ⟨key, x, deployed, hx, hdeployed, rfl, hne⟩
    refine ⟨key, x, hx, ?_⟩
    rw [SortedMap.get?_eq_some_iff.2 hdeployed]
    exact if_neg hne

/-- The markets that a difference writes are the settled ones that are not there already. -/
theorem mem_written_iff (hgen : generated.Keyed) {market : Market} :
    market ∈ (between o current generated).created ++ (between o current generated).updated ↔
      settled o (current.get? market.tickerText) (generated.get? market.tickerText) = some market ∧
        current.get? market.tickerText ≠ some market := by
  rw [List.mem_append, mem_created_iff, mem_updated_iff]
  constructor
  · rintro (⟨key, hx, hnone⟩ | ⟨key, x, deployed, hx, hdeployed, rfl, hne⟩)
    · cases hgen key market hx
      rw [hx, hnone]
      exact ⟨rfl, nofun⟩
    · cases hgen key x hx
      rw [tickerText_candidate, hx, hdeployed]
      exact ⟨rfl, fun h ↦ hne (Option.some.inj h).symm⟩
  · rintro ⟨hsettled, hne⟩
    cases hx : generated.get? market.tickerText with
    | none =>
      rw [hx] at hsettled
      exact absurd hsettled hne
    | some x =>
      cases hdeployed : current.get? market.tickerText with
      | none =>
        rw [hx, hdeployed] at hsettled
        cases hsettled
        exact .inl ⟨_, hx, hdeployed⟩
      | some deployed =>
        rw [hx, hdeployed] at hsettled
        rw [hdeployed] at hne
        exact .inr ⟨_, x, deployed, hx, hdeployed, (Option.some.inj hsettled).symm,
          fun h ↦ hne (congrArg some h.symm)⟩

/-- What is deployed at a key after a difference. -/
theorem get?_apply (hgen : generated.Keyed) (current : MarketMap) (key : String) :
    ((between o current generated).apply current).get? key =
      settled o (current.get? key) (generated.get? key) := by
  rcases MarketMap.get?_foldl_insertMarket ((between o current generated).created ++
    (between o current generated).updated) current key with ⟨market, hmem, rfl, hget⟩ | ⟨hne, hget⟩
  · rw [apply, hget]
    exact ((mem_written_iff hgen).1 hmem).1.symm
  · rw [apply, hget]
    cases hx : generated.get? key with
    | none => rw [settled_none]
    | some x =>
      obtain ⟨market, hsettled, htext, -⟩ := exists_settled_some o (current.get? key) x
      rw [← hgen key x hx] at htext
      subst htext
      rw [hsettled]
      -- A settled market that is not written is there already.
      by_contra hdiff
      refine hne market ((mem_written_iff hgen).2 ⟨?_, hdiff⟩) rfl
      rwa [hx]

/-! ## Small maps -/

def smallMarket (base : String) (normalizeBy : Option CurrencyPair) (enabled : Bool) : Market where
  ticker := ⟨⟨base, "USD"⟩, 8, 1, enabled, ""⟩
  providers := [⟨"kraken", base ++ "-USD", normalizeBy, false, ""⟩]

/-- Three markets in use, of which one is normalized by another. -/
def smallDeployed : MarketMap :=
  .ofMarkets [smallMarket "ETH" (some ⟨"USDT", "USD"⟩) true, smallMarket "SOL" none true,
    smallMarket "USDT" none true]

/-- Two of the deployed markets out of use, one of which is normalized by a new market now. -/
def smallGenerated : MarketMap :=
  .ofMarkets [smallMarket "SOL" (some ⟨"USDC", "USD"⟩) false, smallMarket "USDC" none false,
    smallMarket "USDT" none false]

/-- A map differs in nothing from itself. -/
theorem between_self (o : DiffOptions) (m : MarketMap) : between o m m = ⟨[], [], m.keys, []⟩ := by
  have hget : ∀ e ∈ m.toList, m.get? e.1 = some e.2 := by
    intro e he
    exact SortedMap.get?_eq_some_iff.2 he
  rw [between, MarketDiff.mk.injEq]
  refine ⟨?_, ?_, ?_, ?_⟩
  · apply List.filterMap_eq_nil_iff.2
    intro e he
    rw [created?, hget e he]
  · apply List.filterMap_eq_nil_iff.2
    intro e he
    rw [updated?, hget e he]
    exact if_pos (candidate_self o e.2)
  · have hall : (m.filter (isUnchanged o m)).toList = m.toList := by
      apply List.filter_eq_self.2
      intro e he
      rw [isUnchanged, hget e he]
      exact decide_eq_true (candidate_self o e.2)
    rw [SortedMap.keys, hall, SortedMap.keys]
  · have hnone : (m.filter fun key _ ↦ !m.contains key).toList = [] := by
      apply List.filter_eq_nil_iff.2
      intro e he
      simp [SortedMap.contains, hget e he]
    rw [SortedMap.keys, hnone, List.map_nil]

/-! ## Convergence -/

theorem isNoop_iff {d : MarketDiff} : d.isNoop = true ↔ d.created ++ d.updated = [] := by
  rw [isNoop, Bool.and_eq_true, List.isEmpty_iff, List.isEmpty_iff, List.append_eq_nil_iff]

/-- Nothing is left to write once a difference is applied. -/
theorem written_apply_eq_nil (o : DiffOptions) (current : MarketMap) (hgen : generated.Keyed) :
    (between o ((between o current generated).apply current) generated).created ++
      (between o ((between o current generated).apply current) generated).updated = [] := by
  refine List.eq_nil_iff_forall_not_mem.2 fun market hmem ↦ ?_
  obtain ⟨hsettled, hne⟩ := (mem_written_iff hgen).1 hmem
  rw [get?_apply hgen, settled_settled] at hsettled
  rw [get?_apply hgen] at hne
  exact hne hsettled

/-- A difference changes exactly the keys of the markets that it writes. -/
theorem get?_apply_ne_iff (hgen : generated.Keyed) :
    ((between o current generated).apply current).get? key ≠ current.get? key ↔
      key ∈ ((between o current generated).created ++ (between o current generated).updated).map
        Market.tickerText := by
  rw [get?_apply hgen, List.mem_map]
  constructor
  · intro hne
    cases hx : generated.get? key with
    | none =>
      rw [hx, settled_none] at hne
      exact absurd rfl hne
    | some x =>
      obtain ⟨market, hsettled, htext, -⟩ := exists_settled_some o (current.get? key) x
      rw [← hgen key x hx] at htext
      subst htext
      rw [hx, hsettled] at hne
      exact ⟨market, (mem_written_iff hgen).2 ⟨by rw [hx, hsettled], Ne.symm hne⟩, rfl⟩
  · rintro ⟨market, hmem, rfl⟩
    obtain ⟨hsettled, hne⟩ := (mem_written_iff hgen).1 hmem
    rw [hsettled]
    exact Ne.symm hne

/-- The difference leads from `current` to `generated` in one step and writes only what changes. -/
structure Converges (o : DiffOptions) (current generated : MarketMap) : Prop where
  isNoop : (between o ((between o current generated).apply current) generated).isNoop = true
  created : (between o ((between o current generated).apply current) generated).created = []
  updated : (between o ((between o current generated).apply current) generated).updated = []
  /-- The difference is empty exactly if applying it changes nothing. -/
  isNoop_iff : (between o current generated).isNoop = true ↔
    (between o current generated).apply current = current
  /-- The keys that change are those of the markets that are created or updated. -/
  changed_iff : ∀ key,
    ((between o current generated).apply current).get? key ≠ current.get? key ↔
      key ∈ ((between o current generated).created ++ (between o current generated).updated).map
        Market.tickerText

/-- The difference to a valid map converges in one step and is minimal, whatever is deployed. -/
theorem converges_of_validate (hgen : generated.validate = .ok ()) (o : DiffOptions)
    (current : MarketMap) : Converges o current generated := by
  have hkeyed := MarketMap.keyed_of_validate hgen
  have hnil := written_apply_eq_nil o current hkeyed
  obtain ⟨hcreated, hupdated⟩ := List.append_eq_nil_iff.1 hnil
  refine ⟨isNoop_iff.2 hnil, hcreated, hupdated, ?_, fun key ↦ get?_apply_ne_iff hkeyed⟩
  rw [isNoop_iff]
  constructor
  · intro hwritten
    rw [apply, hwritten, List.foldl_nil]
  · intro happlied
    rw [← List.map_eq_nil_iff (f := Market.tickerText), List.eq_nil_iff_forall_not_mem]
    intro key hkey
    exact (get?_apply_ne_iff hkeyed).2 hkey (by rw [happlied])

/-- One of the deployed markets stands under a key that is not its ticker. -/
theorem converges_small :
    smallGenerated.validate = .ok () ∧
      (smallDeployed.insert "SOL/USD" (smallMarket "BTC" none true)).get? "SOL/USD" =
        some (smallMarket "BTC" none true) ∧
      Converges ⟨false⟩ (smallDeployed.insert "SOL/USD" (smallMarket "BTC" none true))
        smallGenerated :=
  ⟨by decide +kernel, by decide +kernel,
    converges_of_validate (by decide +kernel) ⟨false⟩ _⟩

/-! ## Validity -/

/-- Applied, a difference of accepted maps leaves markets that are in order one by one. -/
theorem valid_of_get?_apply (hcur : current.validate = .ok ()) (hgen : generated.validate = .ok ())
    {market : Market}
    (h : ((between o current generated).apply current).get? key = some market) :
    market.Valid key := by
  have hvalid := (MarketMap.validate_eq_ok_iff.1 hcur).1
  have hvalid' := (MarketMap.validate_eq_ok_iff.1 hgen).1
  rw [get?_apply (MarketMap.keyed_of_validate hgen)] at h
  cases hx : generated.get? key with
  | none =>
    rw [hx, settled_none] at h
    exact hvalid key market h
  | some x =>
    cases hdeployed : current.get? key with
    | none =>
      rw [hx, hdeployed] at h
      cases h
      exact hvalid' key market hx
    | some deployed =>
      rw [hx, hdeployed] at h
      cases h
      exact valid_candidate (hvalid' key x hx)

/-- The generated markets in use are normalized by generated markets in use. -/
def GeneratedResolves (o : DiffOptions) (current generated : MarketMap) : Prop :=
  ∀ key x, generated.get? key = some x → isInUse o (current.get? key) x = true →
    ∀ n, x.NormalizesBy n → ∀ y, generated.get? n.text = some y →
      isInUse o (current.get? n.text) y = true

/-- The retained markets in use are not normalized by generated markets that are not in use. -/
def RetainedResolves (o : DiffOptions) (current generated : MarketMap) : Prop :=
  ∀ key deployed, current.get? key = some deployed → generated.get? key = none →
    deployed.ticker.enabled = true → ∀ n, deployed.NormalizesBy n →
      ∀ y, generated.get? n.text = some y → isInUse o (current.get? n.text) y = true

/-- With their own flags, generated markets resolve as they do in the generated map. -/
theorem generatedResolves_of_overwrite (hgen : generated.Resolves) (ho : o.overwriteEnabled = true)
    (current : MarketMap) : GeneratedResolves o current generated := by
  intro key x hx hinUse n hn y hy
  rw [isInUse, if_pos ho] at hinUse ⊢
  obtain ⟨normalizer, hnormalizer, hflags⟩ := hgen key x hx n hn
  rw [hy] at hnormalizer
  cases hnormalizer
  exact hflags hinUse

/-- Where deployed flags are kept, nothing by which a retained market is normalized is put out of
use. -/
theorem retainedResolves_of_keep (hcur : current.Resolves) (ho : o.overwriteEnabled = false)
    (generated : MarketMap) : RetainedResolves o current generated := by
  intro key deployed hdeployed _ henabled n hn y _
  obtain ⟨normalizer, hnormalizer, hflags⟩ := hcur key deployed hdeployed n hn
  rw [isInUse, if_neg (Bool.eq_false_iff.1 ho), hnormalizer, Option.getD_some]
  exact hflags henabled

/-- The markets of the map that a difference leaves resolve exactly if the generated and the
retained ones do. -/
theorem resolves_apply_iff (hkeyed : generated.Keyed) (hcur : current.Resolves)
    (hgen : generated.Resolves) :
    ((between o current generated).apply current).Resolves ↔
      GeneratedResolves o current generated ∧ RetainedResolves o current generated := by
  constructor
  · intro h
    constructor
    · intro key x hx hinUse n hn y hy
      obtain ⟨market, hmarket, -, hproviders, henabled⟩ :=
        exists_settled_some o (current.get? key) x
      obtain ⟨normalizer, hnormalizer, -, -, henabled'⟩ :=
        exists_settled_some o (current.get? n.text) y
      rw [← hx, ← get?_apply hkeyed] at hmarket
      rw [← hy, ← get?_apply hkeyed] at hnormalizer
      obtain ⟨_, hget, hflags⟩ := h key market hmarket n (by rwa [Market.NormalizesBy, hproviders])
      rw [hnormalizer] at hget
      cases hget
      rw [← henabled']
      exact hflags (henabled.trans hinUse)
    · intro key deployed hdeployed hnone henabled n hn y hy
      obtain ⟨normalizer, hnormalizer, -, -, henabled'⟩ :=
        exists_settled_some o (current.get? n.text) y
      rw [← hy, ← get?_apply hkeyed] at hnormalizer
      have hmarket := get?_apply (o := o) hkeyed current key
      rw [hnone, settled_none, hdeployed] at hmarket
      obtain ⟨_, hget, hflags⟩ := h key deployed hmarket n hn
      rw [hnormalizer] at hget
      cases hget
      rw [← henabled']
      exact hflags henabled
  · rintro ⟨hgenerated, hretained⟩ key market hmarket n hn
    rw [get?_apply hkeyed] at hmarket ⊢
    cases hx : generated.get? key with
    | some x =>
      -- The normalizer of a generated market is generated, too.
      obtain ⟨market', hmarket', -, hproviders, henabled⟩ :=
        exists_settled_some o (current.get? key) x
      rw [hx, hmarket'] at hmarket
      cases hmarket
      rw [Market.NormalizesBy, hproviders] at hn
      obtain ⟨y, hy, -⟩ := hgen key x hx n hn
      obtain ⟨normalizer, hnormalizer, -, -, henabled'⟩ :=
        exists_settled_some o (current.get? n.text) y
      rw [hy]
      refine ⟨normalizer, hnormalizer, fun h ↦ henabled'.trans ?_⟩
      exact hgenerated key x hx (henabled.symm.trans h) n hn y hy
    | none =>
      rw [hx, settled_none] at hmarket
      obtain ⟨normalizer, hnormalizer, hflags⟩ := hcur key market hmarket n hn
      cases hy : generated.get? n.text with
      | none => exact ⟨normalizer, by rwa [settled_none], hflags⟩
      | some y =>
        obtain ⟨normalizer', hnormalizer', -, -, henabled'⟩ :=
          exists_settled_some o (current.get? n.text) y
        refine ⟨normalizer', hnormalizer', fun h ↦ henabled'.trans ?_⟩
        exact hretained key market hmarket hx h n hn y hy

/-- Every normalizer of the map that a difference leaves has a market. -/
theorem exists_normalizer_of_apply (hkeyed : generated.Keyed) (hcur : current.Resolves)
    (hgen : generated.Resolves) {market : Market} {n : CurrencyPair}
    (h : ((between o current generated).apply current).get? key = some market)
    (hn : market.NormalizesBy n) :
    ∃ normalizer, ((between o current generated).apply current).get? n.text = some normalizer := by
  have hsome : (∃ y, current.get? n.text = some y) ∨ ∃ y, generated.get? n.text = some y := by
    rw [get?_apply hkeyed] at h
    cases hx : generated.get? key with
    | some x =>
      obtain ⟨market', hmarket', -, hproviders, -⟩ := exists_settled_some o (current.get? key) x
      rw [hx, hmarket'] at h
      cases h
      rw [Market.NormalizesBy, hproviders] at hn
      obtain ⟨y, hy, -⟩ := hgen key x hx n hn
      exact .inr ⟨y, hy⟩
    | none =>
      rw [hx, settled_none] at h
      obtain ⟨y, hy, -⟩ := hcur key market h n hn
      exact .inl ⟨y, hy⟩
  rw [get?_apply hkeyed]
  cases hy : generated.get? n.text with
  | some y =>
    obtain ⟨normalizer, hnormalizer, -⟩ := exists_settled_some o (current.get? n.text) y
    exact ⟨normalizer, hnormalizer⟩
  | none =>
    rw [hy] at hsome
    rw [settled_none]
    exact hsome.resolve_right nofun

/-- The map that a difference of valid maps leaves is refused at most for a market in use that is
normalized by one that is not. -/
theorem fault_of_apply (hcur : current.validate = .ok ()) (hgen : generated.validate = .ok ())
    {e : ValidationError}
    (h : ((between o current generated).apply current).validate = .error e) :
    ∃ key pair, e = .disabledNormalizeBy key pair := by
  cases MarketMap.fault_of_validate h with
  | market hm hfault => exact ((valid_of_get?_apply hcur hgen hm).not_fault hfault).elim
  | dangling hm hp hn hnone =>
    obtain ⟨normalizer, hnormalizer⟩ := exists_normalizer_of_apply
      (MarketMap.keyed_of_validate hgen) (MarketMap.validate_eq_ok_iff.1 hcur).2
      (MarketMap.validate_eq_ok_iff.1 hgen).2 hm ⟨_, hp, hn⟩
    rw [hnone] at hnormalizer
    cases hnormalizer
  | disabled => exact ⟨_, _, rfl⟩

/-- The map that a difference of valid maps leaves passes every check but one: a market in use may
be normalized by a market that is not.  It is valid exactly if the generated and the retained
markets that are in use afterwards are normalized by markets in use.  The generated ones are if
flags are overwritten, and the retained ones if they are kept. -/
theorem validate_apply (hcur : current.validate = .ok ()) (hgen : generated.validate = .ok ())
    (o : DiffOptions) :
    (((between o current generated).apply current).validate = .ok () ∨
      ∃ key pair, ((between o current generated).apply current).validate =
        .error (.disabledNormalizeBy key pair)) ∧
    (((between o current generated).apply current).validate = .ok () ↔
      GeneratedResolves o current generated ∧ RetainedResolves o current generated) ∧
    (o.overwriteEnabled = true → GeneratedResolves o current generated) ∧
    (o.overwriteEnabled = false → RetainedResolves o current generated) := by
  have hresolves := (MarketMap.validate_eq_ok_iff.1 hcur).2
  have hresolves' := (MarketMap.validate_eq_ok_iff.1 hgen).2
  refine ⟨?_, ?_, fun ho ↦ generatedResolves_of_overwrite hresolves' ho current,
    fun ho ↦ retainedResolves_of_keep hresolves ho generated⟩
  · cases hrun : ((between o current generated).apply current).validate with
    | ok => exact .inl rfl
    | error e =>
      obtain ⟨key, pair, rfl⟩ := fault_of_apply hcur hgen hrun
      exact .inr ⟨key, pair, rfl⟩
  · rw [← resolves_apply_iff (MarketMap.keyed_of_validate hgen) hresolves hresolves',
      MarketMap.validate_eq_ok_iff]
    exact and_iff_right fun key market h ↦ valid_of_get?_apply hcur hgen h

theorem validate_apply_small :
    smallDeployed.validate = .ok () ∧ smallGenerated.validate = .ok () ∧
      (((between ⟨true⟩ smallDeployed smallGenerated).apply smallDeployed).validate = .ok () ∨
        ∃ key pair, ((between ⟨true⟩ smallDeployed smallGenerated).apply smallDeployed).validate =
          .error (.disabledNormalizeBy key pair)) ∧
      (((between ⟨true⟩ smallDeployed smallGenerated).apply smallDeployed).validate = .ok () ↔
        GeneratedResolves ⟨true⟩ smallDeployed smallGenerated ∧
          RetainedResolves ⟨true⟩ smallDeployed smallGenerated) ∧
      GeneratedResolves ⟨true⟩ smallDeployed smallGenerated := by
  have hcur : smallDeployed.validate = .ok () := by decide +kernel
  have hgen : smallGenerated.validate = .ok () := by decide +kernel
  obtain ⟨hrefused, hvalid, hgenerated, -⟩ := validate_apply hcur hgen ⟨true⟩
  exact ⟨hcur, hgen, hrefused, hvalid, hgenerated rfl⟩

/-- Flags that are overwritten put the normalizer of a retained market out of use, and flags that
are kept leave a market in use whose normalizer comes out of use. -/
theorem validate_apply_mixed :
    smallDeployed.validate = .ok () ∧ smallGenerated.validate = .ok () ∧
      ((between ⟨true⟩ smallDeployed smallGenerated).apply smallDeployed).validate =
        .error (.disabledNormalizeBy "ETH/USD" "USDT/USD") ∧
      ((between ⟨false⟩ smallDeployed smallGenerated).apply smallDeployed).validate =
        .error (.disabledNormalizeBy "SOL/USD" "USDC/USD") := by
  decide +kernel

end MarketDiff

end OracleMarkets
