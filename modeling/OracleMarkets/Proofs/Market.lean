import OracleMarkets.Market.Map
import OracleMarkets.Proofs.Except
import OracleMarkets.Proofs.SortedMap

/-!
# Valid market maps

A market map is accepted exactly if every market is valid under its key and every pair by which a
provider is normalized names a market, which is in use if the provider's market is
(`MarketMap.validate_eq_ok_iff`).  A map that is refused has the fault that the error tells
(`MarketMap.fault_of_validate`).
-/

namespace OracleMarkets

/-! ## Providers -/

/-- A provider has a name, a ticker of its own, and metadata that is not too long. -/
structure ProviderConfig.Valid (p : ProviderConfig) : Prop where
  name : Text.isBlankText p.name = false
  offChainTicker : Text.isBlankText p.offChainTicker = false
  metadata : p.metadata.utf8ByteSize ≤ maxMetadataLength

/-- What is wrong with a provider of the market `ticker`. -/
inductive ProviderConfig.Fault (ticker : String) (p : ProviderConfig) : ValidationError → Prop
  | name (h : Text.isBlankText p.name = true) : Fault ticker p (.emptyProviderName ticker)
  | offChainTicker (h : Text.isBlankText p.offChainTicker = true) :
    Fault ticker p (.emptyOffChainTicker ticker p.name)
  | metadata (h : maxMetadataLength < p.metadata.utf8ByteSize) :
    Fault ticker p (.metadataTooLong ticker p.metadata.utf8ByteSize maxMetadataLength)

theorem checkMetadata_eq_ok_iff {ticker metadata : String} :
    checkMetadata ticker metadata = .ok () ↔ metadata.utf8ByteSize ≤ maxMetadataLength := by
  simp [checkMetadata]

theorem checkMetadata_eq_error_iff {ticker metadata : String} {e : ValidationError} :
    checkMetadata ticker metadata = .error e ↔
      maxMetadataLength < metadata.utf8ByteSize ∧
        e = .metadataTooLong ticker metadata.utf8ByteSize maxMetadataLength := by
  unfold checkMetadata
  split
  · next h => simp [Nat.not_lt.2 h]
  · next h => simp [Nat.lt_of_not_le h, eq_comm]

/-- A provider is accepted exactly if it is in order and its name has not been seen. -/
theorem checkProvider_eq_ok_iff {ticker : String} {seen : List String} {p : ProviderConfig} :
    checkProvider ticker seen p = .ok () ↔ p.Valid ∧ p.name ∉ seen := by
  unfold checkProvider
  constructor
  · intro h
    split at h
    · cases h
    · next hname =>
      split at h
      · cases h
      · next hticker =>
        split at h
        · cases h
        · next hseen =>
          exact ⟨⟨by simpa using hname, by simpa using hticker, checkMetadata_eq_ok_iff.1 h⟩, hseen⟩
  · rintro ⟨⟨hname, hticker, hmetadata⟩, hseen⟩
    rw [if_neg (by simp [hname]), if_neg (by simp [hticker]), if_neg hseen]
    exact checkMetadata_eq_ok_iff.2 hmetadata

/-- A provider is refused for a fault that it has. -/
theorem fault_of_checkProvider {ticker : String} {seen : List String} {p : ProviderConfig}
    {e : ValidationError} (h : checkProvider ticker seen p = .error e) :
    p.Fault ticker e ∨ (p.name ∈ seen ∧ e = .duplicateProvider ticker p.name) := by
  unfold checkProvider at h
  split at h
  · next hname =>
    cases h
    exact .inl (.name hname)
  · split at h
    · next hticker =>
      cases h
      exact .inl (.offChainTicker hticker)
    · split at h
      · next hseen =>
        cases h
        exact .inr ⟨hseen, rfl⟩
      · obtain ⟨hlong, rfl⟩ := checkMetadata_eq_error_iff.1 h
        exact .inl (.metadata hlong)

/-- The providers of a list pass if each is valid and no name comes twice or is among those seen. -/
theorem checkProviders_eq_ok_iff {ticker : String} {seen : List String} {l : List ProviderConfig} :
    checkProviders ticker seen l = .ok () ↔
      (∀ p ∈ l, p.Valid) ∧ (l.map (·.name)).Nodup ∧ ∀ p ∈ l, p.name ∉ seen := by
  induction l generalizing seen with
  | nil => simp [checkProviders]
  | cons p l ih =>
    rw [checkProviders, check_bind_eq_ok, checkProvider_eq_ok_iff, ih, List.forall_mem_cons,
      List.map_cons, List.nodup_cons, List.forall_mem_cons]
    simp only [List.mem_map, List.mem_cons, not_or, not_exists, not_and]
    constructor
    · rintro ⟨⟨hp, hseen⟩, hl, hnodup, hrest⟩
      exact ⟨⟨hp, hl⟩, ⟨fun q hq ↦ (hrest q hq).1, hnodup⟩, hseen, fun q hq ↦ (hrest q hq).2⟩
    · rintro ⟨⟨hp, hl⟩, ⟨hne, hnodup⟩, hseen, hrest⟩
      exact ⟨⟨hp, hseen⟩, hl, hnodup, fun q hq ↦ ⟨hne q hq, hrest q hq⟩⟩

theorem fault_of_checkProviders {ticker : String} {seen : List String} {l : List ProviderConfig}
    {e : ValidationError} (h : checkProviders ticker seen l = .error e) :
    (∃ p ∈ l, p.Fault ticker e) ∨
      ∃ p ∈ l, e = .duplicateProvider ticker p.name ∧ ¬(seen ++ l.map (·.name)).Nodup := by
  induction l generalizing seen with
  | nil => cases h
  | cons p l ih =>
    rw [checkProviders] at h
    rcases bind_eq_error.1 h with h | ⟨⟨⟩, -, h⟩
    · rcases fault_of_checkProvider h with h | ⟨hseen, rfl⟩
      · exact .inl ⟨p, List.mem_cons_self, h⟩
      · refine .inr ⟨p, List.mem_cons_self, rfl, fun hnodup ↦ ?_⟩
        exact (List.nodup_append.1 hnodup).2.2 p.name hseen p.name List.mem_cons_self rfl
    · rcases ih h with ⟨q, hq, h⟩ | ⟨q, hq, rfl, hdup⟩
      · exact .inl ⟨q, List.mem_cons_of_mem p hq, h⟩
      · refine .inr ⟨q, List.mem_cons_of_mem p hq, rfl, fun hnodup ↦ hdup ?_⟩
        -- The first provider has moved from the list to those seen.
        rw [List.map_cons] at hnodup
        exact List.perm_middle.nodup_iff.1 hnodup

/-! ## Markets -/

namespace Market

/-- The market may stand under `key`: the key is its ticker, every text and number is in range, and
it lists as many providers as it asks for, none of them twice. -/
structure Valid (key : String) (m : Market) : Prop where
  key_eq : key = m.tickerText
  pair : m.ticker.pair.Valid
  decimals : ¬(m.ticker.decimals < 1 ∨ 36 < m.ticker.decimals)
  minProviderCount : m.ticker.minProviderCount ≠ 0
  enough : m.ticker.minProviderCount.toNat ≤ m.providers.length
  metadata : m.ticker.metadata.utf8ByteSize ≤ maxMetadataLength
  providers : ∀ p ∈ m.providers, p.Valid
  nodup : m.providerNames.Nodup

/-- What is wrong with a market under `key`. -/
inductive Fault (key : String) (m : Market) : ValidationError → Prop
  | key (h : key ≠ m.tickerText) : Fault key m (.marketKeyMismatch key m.tickerText)
  | pair (h : ¬m.ticker.pair.Valid) : Fault key m (.invalidCurrencyPair m.tickerText)
  | decimals (h : m.ticker.decimals < 1 ∨ 36 < m.ticker.decimals) :
    Fault key m (.invalidDecimals m.tickerText m.ticker.decimals)
  | minProviderCount (h : m.ticker.minProviderCount = 0) :
    Fault key m (.invalidMinProviderCount m.tickerText)
  | tooFew (h : m.providers.length < m.ticker.minProviderCount.toNat) :
    Fault key m (.notEnoughProviders m.tickerText m.providers.length m.ticker.minProviderCount)
  | metadata (h : maxMetadataLength < m.ticker.metadata.utf8ByteSize) :
    Fault key m (.metadataTooLong m.tickerText m.ticker.metadata.utf8ByteSize maxMetadataLength)
  | provider {p : ProviderConfig} {e : ValidationError} (hp : p ∈ m.providers)
    (h : p.Fault m.tickerText e) : Fault key m e
  | duplicate {p : ProviderConfig} (hp : p ∈ m.providers) (h : ¬m.providerNames.Nodup) :
    Fault key m (.duplicateProvider m.tickerText p.name)

/-- A market is accepted exactly if it is in order. -/
theorem validate_eq_ok_iff {key : String} {m : Market} : m.validate key = .ok () ↔ m.Valid key := by
  have hproviders : checkProviders m.tickerText [] m.providers = .ok () ↔
      (∀ p ∈ m.providers, p.Valid) ∧ m.providerNames.Nodup := by
    simp [checkProviders_eq_ok_iff, providerNames]
  unfold validate
  simp only [guard_eq_ok, check_bind_eq_ok, CurrencyPair.validate_eq_ok_iff,
    checkMetadata_eq_ok_iff, hproviders, ne_eq, not_not, Nat.not_lt]
  exact ⟨fun ⟨h₁, h₂, h₃, h₄, h₅, h₆, h₇, h₈⟩ ↦ ⟨h₁, h₂, h₃, h₄, h₅, h₆, h₇, h₈⟩,
    fun h ↦ ⟨h.1, h.2, h.3, h.4, h.5, h.6, h.7, h.8⟩⟩

/-- A market is refused for a fault that it has. -/
theorem fault_of_validate {key : String} {m : Market} {e : ValidationError}
    (h : m.validate key = .error e) : m.Fault key e := by
  unfold validate at h
  simp only [guard_eq_error, check_bind_eq_error] at h
  rcases h with ⟨hkey, rfl⟩ | ⟨-, hpair | ⟨-, ⟨hdec, rfl⟩ | ⟨-, ⟨hmin, rfl⟩ | ⟨-, ⟨hfew, rfl⟩ | ⟨-,
    hmeta | ⟨-, hproviders⟩⟩⟩⟩⟩⟩
  · exact .key hkey
  · rw [CurrencyPair.validate] at hpair
    split at hpair
    · cases hpair
    · next hvalid =>
      cases hpair
      exact .pair (mt CurrencyPair.isValid_iff.2 hvalid)
  · exact .decimals hdec
  · exact .minProviderCount hmin
  · exact .tooFew hfew
  · obtain ⟨hlong, rfl⟩ := checkMetadata_eq_error_iff.1 hmeta
    exact .metadata hlong
  · rcases fault_of_checkProviders hproviders with ⟨p, hp, hfault⟩ | ⟨p, hp, rfl, hdup⟩
    · exact .provider hp hfault
    · exact .duplicate hp hdup

/-- A market that is in order has no fault. -/
theorem Valid.not_fault {key : String} {m : Market} (hm : m.Valid key) {e : ValidationError} :
    ¬m.Fault key e := by
  intro h
  cases h with
  | key h => exact h hm.key_eq
  | pair h => exact h hm.pair
  | decimals h => exact hm.decimals h
  | minProviderCount h => exact hm.minProviderCount h
  | tooFew h => exact Nat.not_lt.2 hm.enough h
  | metadata h => exact Nat.not_lt.2 hm.metadata h
  | duplicate _ h => exact h hm.nodup
  | provider hp h =>
    have hv := hm.providers _ hp
    cases h with
    | name h => exact Bool.eq_false_iff.1 hv.name h
    | offChainTicker h => exact Bool.eq_false_iff.1 hv.offChainTicker h
    | metadata h => exact Nat.not_lt.2 hv.metadata h

end Market

/-! ## Maps -/

/-- A provider of the market is normalized by the pair. -/
def Market.NormalizesBy (m : Market) (n : CurrencyPair) : Prop :=
  ∃ p ∈ m.providers, p.normalizeBy = some n

namespace MarketMap

variable {m : MarketMap}

/-- `P` holds of every key and its market. -/
def Forall (P : String → Market → Prop) (m : MarketMap) : Prop :=
  ∀ key market, m.get? key = some market → P key market

/-- Every market stands under its ticker. -/
def Keyed (m : MarketMap) : Prop := m.Forall fun key market ↦ key = market.tickerText

/-- Every pair by which a provider is normalized names a market, which is in use if the market of
the provider is. -/
def Resolves (m : MarketMap) : Prop :=
  ∀ key market, m.get? key = some market → ∀ n, market.NormalizesBy n →
    ∃ normalizer, m.get? n.text = some normalizer ∧
      (market.ticker.enabled = true → normalizer.ticker.enabled = true)

/-- What is wrong with a map. -/
inductive Fault (m : MarketMap) : ValidationError → Prop
  | market {key : String} {market : Market} {e : ValidationError} (hm : m.get? key = some market)
    (h : market.Fault key e) : Fault m e
  | dangling {key : String} {market : Market} {p : ProviderConfig} {n : CurrencyPair}
    (hm : m.get? key = some market) (hp : p ∈ market.providers) (hn : p.normalizeBy = some n)
    (h : m.get? n.text = none) : Fault m (.danglingNormalizeBy key p.name n.text)
  /-- A market in use is normalized by one that is not. -/
  | disabled {key : String} {market normalizer : Market} {n : CurrencyPair}
    (hm : m.get? key = some market) (hn : market.NormalizesBy n)
    (h : m.get? n.text = some normalizer) (henabled : market.ticker.enabled = true)
    (hdisabled : normalizer.ticker.enabled = false) : Fault m (.disabledNormalizeBy key n.text)

/-- A reference is accepted exactly if there is a market for it, which is in use if the one that
refers to it is. -/
theorem checkReference_eq_ok_iff {key : String} {market : Market} {p : ProviderConfig} :
    m.checkReference key market p = .ok () ↔ ∀ n, p.normalizeBy = some n →
      ∃ normalizer, m.get? n.text = some normalizer ∧
        (market.ticker.enabled = true → normalizer.ticker.enabled = true) := by
  unfold checkReference
  cases p.normalizeBy with
  | none => simp
  | some n =>
    cases hget : m.get? n.text with
    | none => simp [hget]
    | some normalizer => simp [hget]

theorem forM_eq_ok_iff_forall {f : String × Market → Except ValidationError Unit} :
    m.toList.forM f = .ok () ↔ m.Forall fun key market ↦ f (key, market) = .ok () := by
  simp only [forM_eq_ok_iff, Prod.forall, Forall, SortedMap.get?_eq_some_iff]

/-- A map is accepted exactly if its markets are valid and their normalizers resolve. -/
theorem validate_eq_ok_iff :
    m.validate = .ok () ↔ m.Forall Market.Valid ∧ m.Resolves := by
  rw [validate, check_bind_eq_ok, forM_eq_ok_iff_forall, forM_eq_ok_iff_forall]
  refine and_congr ?_ ?_
  · simp only [Market.validate_eq_ok_iff]
  · simp only [forM_eq_ok_iff, checkReference_eq_ok_iff]
    constructor
    · rintro h key market hm n ⟨p, hp, hn⟩
      exact h key market hm p hp n hn
    · intro h key market hm p hp n hn
      exact h key market hm n ⟨p, hp, hn⟩

/-- A map is refused for a fault that it has. -/
theorem fault_of_validate {e : ValidationError} (h : m.validate = .error e) : m.Fault e := by
  rcases bind_eq_error.1 h with h | ⟨⟨⟩, -, h⟩
  · obtain ⟨⟨key, market⟩, hmem, h⟩ := exists_eq_error_of_forM h
    exact .market (SortedMap.get?_eq_some_iff.2 hmem) (Market.fault_of_validate h)
  · obtain ⟨⟨key, market⟩, hmem, h⟩ := exists_eq_error_of_forM h
    obtain ⟨p, hp, h⟩ := exists_eq_error_of_forM h
    have hm := SortedMap.get?_eq_some_iff.2 hmem
    unfold checkReference at h
    split at h
    · cases h
    · next n hn =>
      split at h
      · next hnone =>
        cases h
        exact .dangling hm hp hn hnone
      · next normalizer hsome =>
        split at h
        · next hflags =>
          cases h
          exact .disabled hm ⟨p, hp, hn⟩ hsome hflags.1 (Bool.eq_false_iff.2 hflags.2)
        · cases h

/-- In an accepted map every market stands under its ticker. -/
theorem keyed_of_validate (h : m.validate = .ok ()) : m.Keyed :=
  fun key market hm ↦ ((validate_eq_ok_iff.1 h).1 key market hm).key_eq

theorem get?_removeMarket_eq_some_iff {ticker key : String} {market : Market} :
    (m.removeMarket ticker).get? key = some market ↔ key ≠ ticker ∧ m.get? key = some market := by
  rw [removeMarket, SortedMap.get?_erase]
  split <;> simp_all

/-- An accepted map without one of its markets is accepted exactly if no other market is normalized
by that one. -/
theorem validate_removeMarket_iff (h : m.validate = .ok ()) (ticker : String) :
    (m.removeMarket ticker).validate = .ok () ↔
      ∀ key market n, key ≠ ticker → m.get? key = some market → market.NormalizesBy n →
        n.text ≠ ticker := by
  obtain ⟨hvalid, hresolves⟩ := validate_eq_ok_iff.1 h
  rw [validate_eq_ok_iff]
  constructor
  · rintro ⟨-, hleft⟩ key market n hne hm hn
    obtain ⟨normalizer, hget, -⟩ :=
      hleft key market (get?_removeMarket_eq_some_iff.2 ⟨hne, hm⟩) n hn
    exact (get?_removeMarket_eq_some_iff.1 hget).1
  · intro hother
    constructor
    · intro key market hm
      exact hvalid key market (get?_removeMarket_eq_some_iff.1 hm).2
    · intro key market hm n hn
      obtain ⟨hne, hm⟩ := get?_removeMarket_eq_some_iff.1 hm
      obtain ⟨normalizer, hget, henabled⟩ := hresolves key market hm n hn
      have hstays := get?_removeMarket_eq_some_iff.2 ⟨hother key market n hne hm hn, hget⟩
      exact ⟨normalizer, hstays, henabled⟩

/-- The map that writing markets leaves has at each key the last market of this ticker, or what it
had before if there is none. -/
theorem get?_foldl_insertMarket (l : List Market) (m : MarketMap) (key : String) :
    (∃ market ∈ l, market.tickerText = key ∧ (l.foldl insertMarket m).get? key = some market) ∨
      ((∀ market ∈ l, market.tickerText ≠ key) ∧
        (l.foldl insertMarket m).get? key = m.get? key) := by
  induction l generalizing m with
  | nil => exact .inr ⟨nofun, rfl⟩
  | cons market l ih =>
    rcases ih (m.insertMarket market) with ⟨other, hother, hkey, hget⟩ | ⟨hne, hget⟩
    · exact .inl ⟨other, List.mem_cons_of_mem market hother, hkey, hget⟩
    · rw [List.foldl_cons, hget, insertMarket, SortedMap.get?_insert]
      by_cases hkey : key = market.tickerText
      · exact .inl ⟨market, List.mem_cons_self, hkey.symm, if_pos hkey⟩
      · exact .inr ⟨List.forall_mem_cons.2 ⟨Ne.symm hkey, hne⟩, if_neg hkey⟩

/-- Writing the markets of a map that is keyed by tickers puts it over another map. -/
theorem Keyed.get?_foldl_insertMarket {written : MarketMap} (h : written.Keyed) (m : MarketMap)
    (key : String) :
    (written.values.foldl insertMarket m).get? key = (written.get? key).or (m.get? key) := by
  rcases MarketMap.get?_foldl_insertMarket written.values m key with
    ⟨market, hmem, rfl, hget⟩ | ⟨hne, hget⟩
  · obtain ⟨⟨key, _⟩, he, rfl⟩ := List.mem_map.1 hmem
    have hmarket := SortedMap.get?_eq_some_iff.2 he
    rw [hget, ← h _ _ hmarket, hmarket, Option.some_or]
  · have hnone : written.get? key = none := by
      refine Option.eq_none_iff_forall_ne_some.2 fun market hmarket ↦ ?_
      exact hne market (List.mem_map_of_mem (SortedMap.get?_eq_some_iff.1 hmarket))
        (h key market hmarket).symm
    rw [hget, hnone, Option.none_or]

end MarketMap

end OracleMarkets
