import OracleMarkets.Proofs.DropLog
import OracleMarkets.Proofs.Stage.Markets

/-!
# Disabled venues

The entries of disabled venues are applied one after another, each to what those before it have
left, and several of them may be about one market: their tickers may differ in case and spacing, and
a venue may be named more than once.  What is left of a market is what no entry names, and every
provider that is taken out is logged once, under the key of its market, by the first entry that
names it.
-/

namespace OracleMarkets

variable {c : Config} {key : String}

/-! ## What an entry logs -/

/-- What is logged of the market at `key` when some venues are taken out of it. -/
def Market.disabledDrops (key : String) (gone : String → Bool) (m : Market) : List (Drop Market) :=
  (m.providers.filter fun p ↦ gone p.name).map fun p ↦
    ⟨s!"provider {p.name} disabled for {key}", p.name, m⟩

theorem getD_disableAt (ticker : String) (names : List String) (state : MarketMap × ExclusionLog)
    (key : String) :
    (disableAt ticker names state).2.getD key [] = state.2.getD key [] ++
      (state.1.get? key).elim []
        (Market.disabledDrops key fun name ↦ ticker = key && names.contains name) := by
  have hother : ticker ≠ key → ∀ m : Market,
      m.disabledDrops key (fun name ↦ ticker = key && names.contains name) = [] := by
    intro hne m
    simp [Market.disabledDrops, hne]
  unfold disableAt
  split
  · next hnone =>
    by_cases hkey : ticker = key
    · rw [← hkey, hnone, Option.elim_none, List.append_nil]
    · cases state.1.get? key with
      | none => rw [Option.elim_none, List.append_nil]
      | some market => rw [Option.elim_some, hother hkey, List.append_nil]
  · next market hmarket =>
    have hlog := DropLog.getD_foldl_append (fun _ : ProviderConfig ↦ ticker)
      (fun p ↦ (⟨s!"provider {p.name} disabled for {ticker}", p.name, market⟩ : Drop Market))
      (market.providers.filter fun p ↦ names.contains p.name) state.2 key
    refine hlog.trans (congrArg (state.2.getD key [] ++ ·) ?_)
    by_cases hkey : ticker = key
    · subst hkey
      simp [hmarket, Market.disabledDrops]
    · rw [List.filter_eq_nil_iff.2 fun _ _ ↦ by simp [hkey], List.map_nil]
      cases state.1.get? key with
      | none => rfl
      | some other => exact (hother hkey other).symm

/-- An entry logs the providers that it takes out, after what is logged of the market before. -/
theorem getD_disableStep {state next : MarketMap × ExclusionLog} {e : String × List String}
    (h : disableStep state e = .ok next) (key : String) :
    next.2.getD key [] = state.2.getD key [] ++
      (state.1.get? key).elim [] (Market.disabledDrops key fun name ↦ disablesAt key name e) := by
  obtain ⟨pair, hpair, h⟩ := bind_eq_ok.1 h
  cases h
  rw [getD_disableAt]
  simp only [disablesAt, liftValidation_eq_ok.1 hpair]

/-! ## What all entries log -/

/-- The venue of a drop and why it was left out. -/
def Drop.notice {σ : Type} (d : Drop σ) : String × String := (d.provider, d.reason)

/-- What a provider is logged with when it is taken out of the market at `key`. -/
def ProviderConfig.notice (key : String) (p : ProviderConfig) : String × String :=
  (p.name, s!"provider {p.name} disabled for {key}")

theorem Market.map_notice_disabledDrops (m : Market) (key : String) (gone : String → Bool) :
    (m.disabledDrops key gone).map Drop.notice =
      (m.providers.filter fun p ↦ gone p.name).map (ProviderConfig.notice key) := by
  rw [disabledDrops, List.map_map]
  rfl

/-- Taking out some venues and then others is taking out all of them at once. -/
theorem Market.providers_gone_perm (m : Market) (gone more : String → Bool) :
    ((m.providers.filter fun p ↦ gone p.name) ++
        (m.without gone).providers.filter fun p ↦ more p.name).Perm
      (m.providers.filter fun p ↦ gone p.name || more p.name) := by
  have hfirst : ((m.providers.filter fun p ↦ gone p.name || more p.name).filter fun p ↦
      gone p.name) = m.providers.filter fun p ↦ gone p.name := by
    rw [List.filter_filter]
    refine List.filter_congr fun p _ ↦ ?_
    cases gone p.name <;> simp
  have hrest : ((m.providers.filter fun p ↦ gone p.name || more p.name).filter fun p ↦
      !gone p.name) = (m.without gone).providers.filter fun p ↦ more p.name := by
    rw [without, List.filter_filter, List.filter_filter]
    refine List.filter_congr fun p _ ↦ ?_
    cases gone p.name <;> simp
  rw [← hfirst, ← hrest]
  exact List.filter_append_perm (fun p : ProviderConfig ↦ gone p.name) _

/-- Entries that are applied one after another log every provider that one of them names, once. -/
theorem notices_foldlM_disableStep {l : List (String × List String)}
    {state next : MarketMap × ExclusionLog} (h : l.foldlM disableStep state = .ok next)
    (key : String) :
    ((next.2.getD key []).map Drop.notice).Perm ((state.2.getD key []).map Drop.notice ++
      (state.1.get? key).elim [] fun market ↦
        (market.providers.filter fun p ↦ l.any (disablesAt key p.name)).map
          (ProviderConfig.notice key)) := by
  induction l generalizing state with
  | nil =>
    rw [← Except.ok.inj h]
    cases state.1.get? key with
    | none => simp
    | some market => simp
  | cons e l ih =>
    rw [List.foldlM_cons] at h
    obtain ⟨state', hstate', h⟩ := bind_eq_ok.1 h
    refine (ih h).trans ?_
    rw [getD_disableStep hstate', get?_disableStep hstate']
    cases state.1.get? key with
    | none => simp
    | some market =>
      -- What this entry leaves of the market is what the others find.
      have hgone := (market.providers_gone_perm (fun name ↦ disablesAt key name e) fun name ↦
        l.any (disablesAt key name)).map (ProviderConfig.notice key)
      rw [List.map_append] at hgone
      rw [Option.elim_some, Option.map_some, Option.elim_some, Option.elim_some, List.map_append,
        List.append_assoc, Market.map_notice_disabledDrops]
      simpa only [List.any_cons] using hgone.append_left _

/-! ## What the stage leaves and logs -/

/-- If the tickers of all entries can be read, every market is left with exactly the providers that
no entry for its key names, in their order, and is otherwise the same.  Every provider that is taken
out is logged once under that key, and nothing else is logged. -/
theorem excludeDisabledProviders_removes
    (hparse : ∀ e ∈ c.disabledProviders.toList, ∃ pair, CurrencyPair.parse e.1 = .ok pair)
    (m : MarketMap) :
    (∀ key name, c.disables key name = true ↔ ∃ e ∈ c.disabledProviders.toList, ∃ pair,
      CurrencyPair.parse e.1 = .ok pair ∧ pair.text = key ∧ name ∈ e.2) ∧
    ∃ log, excludeDisabledProviders c m =
        .ok (m.mapValues fun key market ↦ market.without (c.disables key), log) ∧
      (∀ key market, m.get? key = some market →
        ((log.getD key []).map fun d ↦ (d.provider, d.reason)).Perm
          ((market.providers.filter fun p ↦ c.disables key p.name).map fun p ↦
            (p.name, s!"provider {p.name} disabled for {key}"))) ∧
      ∀ key, m.get? key = none → log.getD key [] = [] := by
  refine ⟨fun key name ↦ Config.disables_iff, ?_⟩
  obtain ⟨⟨left, log⟩, hrun⟩ := exists_excludeDisabledProviders_of_parse hparse m
  have hleft : left = m.mapValues fun key market ↦ market.without (c.disables key) := by
    refine SortedMap.ext_get? fun key ↦ ?_
    rw [SortedMap.get?_mapValues]
    exact get?_foldlM_disableStep hrun key
  rw [hrun, hleft]
  refine ⟨log, rfl, fun key market hmarket ↦ ?_, fun key hnone ↦ ?_⟩
  · have hlog := notices_foldlM_disableStep hrun key
    rw [hmarket] at hlog
    exact hlog
  · have hlog := notices_foldlM_disableStep hrun key
    rw [hnone] at hlog
    exact List.map_eq_nil_iff.1 hlog.eq_nil

/-- Two entries for `BTC/USD`, one of which names a venue twice and the other names it again. -/
def Config.overlapping : Config :=
  { standard with
    disabledProviders := .ofList [("BTC/USD", ["okx", "okx"]), (" btc/usd", ["kraken", "okx"])] }

def threeVenues : MarketMap :=
  .ofMarkets [⟨.ofPair ⟨"BTC", "USD"⟩ 1, ["gate", "kraken", "okx"].map (.ofVenue · "BTC-USD")⟩]

/-- Both entries are about one market, and every venue is taken out and logged once. -/
theorem excludeDisabledProviders_removes_overlapping :
    (∀ e ∈ Config.overlapping.disabledProviders.toList,
      ∃ pair, CurrencyPair.parse e.1 = .ok pair) ∧
    ∃ left log, excludeDisabledProviders .overlapping threeVenues = .ok (left, log) ∧
      (left.get? "BTC/USD").map Market.providerNames = some ["gate"] ∧
      ((log.getD "BTC/USD" []).map fun d ↦ (d.provider, d.reason)).Perm
        [("kraken", "provider kraken disabled for BTC/USD"),
          ("okx", "provider okx disabled for BTC/USD")] := by
  have hparse : ∀ e ∈ Config.overlapping.disabledProviders.toList,
      CurrencyPair.parse e.1 = .ok ⟨"BTC", "USD"⟩ := by decide +kernel
  have hparse : ∀ e ∈ Config.overlapping.disabledProviders.toList,
      ∃ pair, CurrencyPair.parse e.1 = .ok pair := fun e he ↦ ⟨_, hparse e he⟩
  obtain ⟨-, log, hrun, hlog, -⟩ := excludeDisabledProviders_removes hparse threeVenues
  refine ⟨hparse, _, log, hrun, by decide +kernel, ?_⟩
  exact hlog "BTC/USD" _ rfl

end OracleMarkets
