import OracleMarkets.Proofs.Config
import OracleMarkets.Proofs.Market

/-!
# What is accepted

The checks of market maps and of configurations run in a fixed order and stop at the first fault.
What passes is told here without the checks: a market map passes exactly if each market, each
provider and each reference is in order (`MarketMap.validate_eq_ok_iff_forall`), and a configuration
exactly if it is consistent (`Config.validate_eq_ok_iff_consistent`).  No file is loaded as a
configuration that is not.
-/

namespace OracleMarkets

/-! ## Market maps -/

/-- A text is not blank if one of its characters is not. -/
theorem Text.isBlankText_eq_false_iff {s : String} :
    isBlankText s = false ↔ ∃ c ∈ s.toList, isBlank c = false := by
  rw [isBlankText, List.all_eq_false]
  simp only [Bool.not_eq_true]

/-- A provider is in order exactly if its name and its off-chain ticker are not blank, and its
metadata not too long. -/
theorem ProviderConfig.valid_iff {p : ProviderConfig} :
    p.Valid ↔ (∃ c ∈ p.name.toList, Text.isBlank c = false) ∧
      (∃ c ∈ p.offChainTicker.toList, Text.isBlank c = false) ∧
      p.metadata.utf8ByteSize ≤ 16384 := by
  rw [← Text.isBlankText_eq_false_iff, ← Text.isBlankText_eq_false_iff]
  exact ⟨fun h ↦ ⟨h.name, h.offChainTicker, h.metadata⟩, fun ⟨h₁, h₂, h₃⟩ ↦ ⟨h₁, h₂, h₃⟩⟩

/-- A market is in order exactly if it stands under its ticker, its pair, numbers and metadata are
in range, and its providers are in order and have different names. -/
theorem Market.valid_iff {key : String} {m : Market} :
    m.Valid key ↔ key = m.ticker.pair.base ++ "/" ++ m.ticker.pair.quote ∧ m.ticker.pair.Valid ∧
      (1 ≤ m.ticker.decimals ∧ m.ticker.decimals ≤ 36) ∧
      (1 ≤ m.ticker.minProviderCount ∧ m.ticker.minProviderCount.toNat ≤ m.providers.length) ∧
      m.ticker.metadata.utf8ByteSize ≤ 16384 ∧ (m.providers.map (·.name)).Nodup ∧
      ∀ p ∈ m.providers, p.Valid := by
  have hdecimals : ¬(m.ticker.decimals < 1 ∨ 36 < m.ticker.decimals) ↔
      1 ≤ m.ticker.decimals ∧ m.ticker.decimals ≤ 36 := by
    rw [not_or, UInt64.not_lt, UInt64.not_lt]
  have hcount : m.ticker.minProviderCount ≠ 0 ↔ 1 ≤ m.ticker.minProviderCount := by
    rw [Ne, ← UInt64.toNat_inj, UInt64.le_iff_toNat_le]
    exact Nat.one_le_iff_ne_zero.symm
  rw [← hdecimals, ← hcount]
  exact ⟨fun h ↦ ⟨h.key_eq, h.pair, h.decimals, ⟨h.minProviderCount, h.enough⟩, h.metadata, h.nodup,
      h.providers⟩,
    fun ⟨h₁, h₂, h₃, ⟨h₄, h₅⟩, h₆, h₇, h₈⟩ ↦ ⟨h₁, h₂, h₃, h₄, h₅, h₆, h₈, h₇⟩⟩

/-- A market map is accepted exactly if every market stands under its ticker, has a valid pair,
decimals from 1 to 36, at least one required provider and as many as are required, none of them
twice, if no name is blank and no metadata longer than 16384 bytes, and if every provider is
normalized by a pair whose market is in the map, and in use if the market of the provider is. -/
theorem MarketMap.validate_eq_ok_iff_forall (m : MarketMap) :
    m.validate = .ok () ↔ ∀ key market, m.get? key = some market →
      key = market.ticker.pair.base ++ "/" ++ market.ticker.pair.quote ∧ market.ticker.pair.Valid ∧
      (1 ≤ market.ticker.decimals ∧ market.ticker.decimals ≤ 36) ∧
      (1 ≤ market.ticker.minProviderCount ∧
        market.ticker.minProviderCount.toNat ≤ market.providers.length) ∧
      market.ticker.metadata.utf8ByteSize ≤ 16384 ∧ (market.providers.map (·.name)).Nodup ∧
      ∀ p ∈ market.providers, (∃ c ∈ p.name.toList, Text.isBlank c = false) ∧
        (∃ c ∈ p.offChainTicker.toList, Text.isBlank c = false) ∧ p.metadata.utf8ByteSize ≤ 16384 ∧
        ∀ n, p.normalizeBy = some n →
          ∃ normalizer, m.get? (n.base ++ "/" ++ n.quote) = some normalizer ∧
            (market.ticker.enabled = true → normalizer.ticker.enabled = true) := by
  rw [validate_eq_ok_iff]
  constructor
  · rintro ⟨hvalid, hresolves⟩ key market hm
    obtain ⟨hkey, hpair, hdecimals, hcount, hmetadata, hnodup, hproviders⟩ :=
      Market.valid_iff.1 (hvalid key market hm)
    refine ⟨hkey, hpair, hdecimals, hcount, hmetadata, hnodup, fun p hp ↦ ?_⟩
    obtain ⟨hname, hticker, hlength⟩ := ProviderConfig.valid_iff.1 (hproviders p hp)
    exact ⟨hname, hticker, hlength, fun n hn ↦ hresolves key market hm n ⟨p, hp, hn⟩⟩
  · intro h
    refine ⟨fun key market hm ↦ ?_, ?_⟩
    · obtain ⟨hkey, hpair, hdecimals, hcount, hmetadata, hnodup, hproviders⟩ := h key market hm
      refine Market.valid_iff.2
        ⟨hkey, hpair, hdecimals, hcount, hmetadata, hnodup, fun p hp ↦ ?_⟩
      obtain ⟨hname, hticker, hlength, -⟩ := hproviders p hp
      exact ProviderConfig.valid_iff.2 ⟨hname, hticker, hlength⟩
    · rintro key market hm n ⟨p, hp, hn⟩
      obtain ⟨-, -, -, -, -, -, hproviders⟩ := h key market hm
      exact (hproviders p hp).2.2.2 n hn

/-! ## Configurations -/

namespace Config

/-- A number that may be a threshold: a zero, or a positive number that is not infinite. -/
def IsThreshold (x : Float) : Prop :=
  match x.toModel.unpack with
  | .zero _ => True
  | .finite .positive _ _ _ => True
  | _ => False

theorem isFinite_and_zero_le_iff {x : Float} : x.isFinite = true ∧ 0.0 ≤ x ↔ IsThreshold x := by
  have hzero : (0.0 : Float).toModel.unpack = .zero .positive := rfl
  have hfinite : x.isFinite = x.toModel.unpack.isFinite := rfl
  have hle : 0.0 ≤ x ↔ Float.Model.UnpackedFloat.le (.zero .positive) x.toModel.unpack = true := by
    rw [← hzero]
    change Float.le 0.0 x = true ↔ _
    rw [Float.le, decide_eq_true_iff]
    exact Iff.rfl
  rw [hfinite, hle, IsThreshold]
  cases x.toModel.unpack with
  | notANumber => exact iff_of_false (fun h ↦ Bool.false_ne_true h.1) id
  | infinity s => exact iff_of_false (fun h ↦ Bool.false_ne_true h.1) id
  | zero s => exact iff_of_true ⟨rfl, rfl⟩ trivial
  | finite s mantissa exponent h =>
    cases s with
    | positive => exact iff_of_true ⟨rfl, rfl⟩ trivial
    | negative => exact iff_of_false (fun h ↦ Bool.false_ne_true h.2) id

theorem checkThreshold_eq_ok_iff {owner field : String} {x : Float} :
    checkThreshold owner field x = .ok () ↔ IsThreshold x := by
  rw [← isFinite_and_zero_le_iff, checkThreshold]
  split
  · next h => exact iff_of_true rfl h
  · next h => exact iff_of_false nofun h

/-- The parts of a configuration fit together. -/
structure Consistent (c : Config) : Prop where
  minCexProviderCount : c.minCexProviderCount ≠ 0
  minDexProviderCount : c.minDexProviderCount ≠ 0
  filters : c.excludedPairs = ∅ ∨ c.allowedPairs = ∅
  providers : ∀ name s, c.providers.get? name = some s →
    IsThreshold s.minUsdVolume ∧ IsThreshold s.minProviderLiquidity
  quotes : ∀ quote s, c.quotes.get? quote = some s →
    IsThreshold s.minProviderVolume ∧ IsThreshold s.minProviderLiquidity
  /-- A quote is normalized by a pair that leads from it to a quote with settings. -/
  normalizers : ∀ quote s n, c.quotes.get? quote = some s → s.normalizeBy = some n →
    n.base = quote ∧ ∃ s', c.quotes.get? n.quote = some s'
  disabledProviders : ∀ ticker venues, c.disabledProviders.get? ticker = some venues →
    ∃ pair, CurrencyPair.parse ticker = .ok pair
  overrides : c.overrides.validate = .ok ()

theorem checkProvider_eq_ok_iff {name : String} {s : ProviderSettings} :
    checkProvider name s = .ok () ↔
      IsThreshold s.minUsdVolume ∧ IsThreshold s.minProviderLiquidity := by
  rw [checkProvider, check_bind_eq_ok, checkThreshold_eq_ok_iff, checkThreshold_eq_ok_iff]

/-- A configuration is accepted exactly if it is consistent, and it is loaded from a file exactly if
the file's text is that of the configuration and it is accepted. -/
theorem validate_eq_ok_iff_consistent (c : Config) :
    (c.validate = .ok () ↔ c.Consistent) ∧
      ∀ path content, ofFile path content = .ok c ↔
        ∃ text, content = .ok text ∧ ofText path text = .ok c ∧ c.validate = .ok () := by
  refine ⟨?_, fun _ _ ↦ ofFile_eq_ok_iff⟩
  rw [validate_eq_ok_iff]
  simp only [SortedMap.isEmpty_iff, checkProvider_eq_ok_iff, checkQuote_eq_ok_iff,
    checkThreshold_eq_ok_iff, Prod.forall, ← SortedMap.get?_eq_some_iff]
  constructor
  · rintro ⟨hcex, hdex, hfilters, hproviders, hquotes, hdisabled, hoverrides⟩
    exact {
      minCexProviderCount := hcex
      minDexProviderCount := hdex
      filters := hfilters
      providers := hproviders
      quotes := fun quote s hs ↦ ⟨(hquotes quote s hs).1, (hquotes quote s hs).2.1⟩
      normalizers := fun quote s n hs hn ↦
        ((hquotes quote s hs).2.2 n hn).imp_right Option.isSome_iff_exists.1
      disabledProviders := fun ticker venues h ↦
        hdisabled ticker (SortedMap.mem_keys_iff.2 ⟨venues, SortedMap.get?_eq_some_iff.1 h⟩)
      overrides := hoverrides }
  · intro h
    refine ⟨h.minCexProviderCount, h.minDexProviderCount, h.filters, h.providers,
      fun quote s hs ↦ ?_, fun ticker hticker ↦ ?_, h.overrides⟩
    · obtain ⟨hvolume, hliquidity⟩ := h.quotes quote s hs
      exact ⟨hvolume, hliquidity, fun n hn ↦
        (h.normalizers quote s n hs hn).imp_right Option.isSome_iff_exists.2⟩
    · obtain ⟨venues, hvenues⟩ := SortedMap.mem_keys_iff.1 hticker
      exact h.disabledProviders ticker venues (SortedMap.get?_eq_some_iff.2 hvenues)

end Config

end OracleMarkets
