import OracleMarkets.Proofs.CurrencyPair
import OracleMarkets.Proofs.Market
import OracleMarkets.Proofs.Stage.Basic
import OracleMarkets.Stage.Rekey

/-!
# What re-keying leaves

Every market that is left comes from a market of the map before: either it keeps its key and its
pair, or its only provider is an on-chain venue and it stands under the pair that this venue's
ticker tells.  Every new name that providers follow is that of a market that moved.
-/

namespace OracleMarkets

variable {c : Config} {E : PipelineError → Prop}

open Stage (Meets)

/-- The pair that a venue tells is a normal one, apart from the quote of the pair by which its
provider is normalized. -/
theorem exists_normal_of_defiPair? {p : ProviderConfig} {pair : CurrencyPair}
    (h : defiPair? p = some pair) :
    ∃ told : CurrencyPair, told.Normal ∧ pair.base = told.base ∧
      pair.quote = (p.normalizeBy.map CurrencyPair.quote).getD told.quote := by
  simp only [defiPair?, Option.bind_eq_bind, Option.bind_eq_some_iff] at h
  obtain ⟨read, hread, h⟩ := h
  have hnormal := CurrencyPair.normal_of_ofText? hread
  refine ⟨if p.invert then read.inverted else read, ?_, ?_⟩
  · split
    · exact hnormal.inverted
    · exact hnormal
  · cases hn : p.normalizeBy with
    | none =>
      rw [hn] at h
      cases h
      exact ⟨rfl, rfl⟩
    | some n =>
      rw [hn] at h
      cases h
      exact ⟨rfl, rfl⟩

/-! ## Markets that move -/

namespace Market

def withPair (m : Market) (pair : CurrencyPair) : Market :=
  { m with ticker := { m.ticker with pair } }

/-- The market with its normalizers under their new names. -/
def follow (renames : SortedMap CurrencyPair CurrencyPair) (m : Market) : Market :=
  { m with providers := m.providers.map (ProviderConfig.follow renames) }

@[simp] theorem providerNames_follow (renames : SortedMap CurrencyPair CurrencyPair) (m : Market) :
    (m.follow renames).providerNames = m.providerNames := by
  simp [follow, providerNames, ProviderConfig.follow]

theorem follow_eq_self {renames : SortedMap CurrencyPair CurrencyPair}
    (h : ∀ pair, renames.get? pair = none) (m : Market) : m.follow renames = m := by
  have hp : ∀ p : ProviderConfig, p.follow renames = p := by
    rintro ⟨name, ticker, normalizeBy, invert, metadata⟩
    cases normalizeBy <;> simp [ProviderConfig.follow, SortedMap.getD, h]
  rw [follow, List.map_congr_left fun p _ ↦ hp p, List.map_id']

/-- The only provider of the market is an on-chain venue, and its ticker tells `pair`. -/
def MovesTo (c : Config) (m : Market) (pair : CurrencyPair) : Prop :=
  ∃ p, m.providers = [p] ∧ c.isDefi p.name = true ∧ defiPair? p = some pair

theorem not_movesTo (hc : ∀ name, c.isDefi name = false) {m : Market} {pair : CurrencyPair} :
    ¬m.MovesTo c pair := by
  rintro ⟨p, -, hdefi, -⟩
  rw [hc p.name] at hdefi
  cases hdefi

end Market

theorem isSingleDefi_iff {m : Market} :
    isSingleDefi c m = true ↔ ∃ p, m.providers = [p] ∧ c.isDefi p.name = true := by
  unfold isSingleDefi
  constructor
  · intro h
    split at h
    · next p hp => exact ⟨p, hp, h⟩
    · cases h
  · rintro ⟨p, hp, h⟩
    rw [hp]
    exact h

theorem isSingleDefi_congr {m n : Market} (h : m.providerNames = n.providerNames) :
    isSingleDefi c m = isSingleDefi c n := by
  have hiff {m : Market} :
      isSingleDefi c m = true ↔ ∃ name, m.providerNames = [name] ∧ c.isDefi name = true := by
    simp only [isSingleDefi_iff, Market.providerNames, List.map_eq_singleton_iff]
    constructor
    · rintro ⟨p, hp, hdefi⟩
      exact ⟨p.name, ⟨p, hp, rfl⟩, hdefi⟩
    · rintro ⟨_, ⟨p, hp, rfl⟩, hdefi⟩
      exact ⟨p, hp, hdefi⟩
  rw [Bool.eq_iff_iff, hiff, hiff, h]

/-- `market` is what re-keying makes at `key` of the market `market₀` at `key₀`. -/
inductive Rekeyed (c : Config) (renames : SortedMap CurrencyPair CurrencyPair) (key₀ : String)
    (market₀ : Market) : String → Market → Prop
  | kept (h : isSingleDefi c market₀ = false) :
    Rekeyed c renames key₀ market₀ key₀ (market₀.follow renames)
  /-- A market of one on-chain venue moves to the pair that the venue tells. -/
  | moved {pair : CurrencyPair} (h : market₀.MovesTo c pair) :
    Rekeyed c renames key₀ market₀ pair.text ((market₀.withPair pair).follow renames)

section

variable {renames : SortedMap CurrencyPair CurrencyPair} {key₀ key : String}
  {market₀ market : Market}

/-- Only the pair of the ticker changes. -/
theorem Rekeyed.ticker_eq (h : Rekeyed c renames key₀ market₀ key market) :
    market.ticker = { market₀.ticker with pair := market.ticker.pair } := by
  cases h with
  | kept => rfl
  | moved => rfl

theorem Rekeyed.providerNames_eq (h : Rekeyed c renames key₀ market₀ key market) :
    market.providerNames = market₀.providerNames := by
  cases h with
  | kept => exact Market.providerNames_follow renames market₀
  | moved => exact Market.providerNames_follow renames _

/-- A market stays where it is, or it moves to the pair that its venue tells. -/
theorem Rekeyed.place (h : Rekeyed c renames key₀ market₀ key market) :
    (key = key₀ ∧ market.ticker.pair = market₀.ticker.pair) ∨
      (key = market.tickerText ∧ market₀.MovesTo c market.ticker.pair) := by
  cases h with
  | kept => exact .inl ⟨rfl, rfl⟩
  | moved hmoves => exact .inr ⟨rfl, hmoves⟩

end

/-! ## One market after another -/

/-- What stands in the map after a market is put under the pair of its only provider. -/
theorem get?_kept_add {r : Rekeying} {x : Market} {key : String} {market : Market}
    (h : (r.add x).kept.get? key = some market) :
    r.kept.get? key = some market ∨ ∃ pair, x.providers.head?.bind defiPair? = some pair ∧
      key = pair.text ∧ market = x.withPair pair := by
  unfold Rekeying.add at h
  split at h
  · exact .inl h
  · next pair hpair =>
    split at h
    · exact .inl h
    · rw [SortedMap.get?_insert] at h
      split at h
      · next hkey =>
        cases h
        exact .inr ⟨pair, hpair, hkey, rfl⟩
      · exact .inl h

/-- Which names are new after a market is put under the pair of its only provider. -/
theorem get?_renames_add {r : Rekeying} {x : Market} {former pair : CurrencyPair}
    (h : (r.add x).renames.get? former = some pair) :
    r.renames.get? former = some pair ∨
      (x.ticker.pair = former ∧ x.providers.head?.bind defiPair? = some pair) := by
  unfold Rekeying.add at h
  split at h
  · exact .inl h
  · next new hnew =>
    split at h
    · exact .inl h
    · dsimp only at h
      split at h
      · exact .inl h
      · rw [SortedMap.get?_insert] at h
        split at h
        · next hformer =>
          cases h
          exact .inr ⟨hformer.symm, hnew⟩
        · exact .inl h

theorem get?_kept_foldl_add {l : List Market} {r : Rekeying} {key : String} {market : Market}
    (h : (l.foldl Rekeying.add r).kept.get? key = some market) :
    r.kept.get? key = some market ∨ ∃ x ∈ l, ∃ pair,
      x.providers.head?.bind defiPair? = some pair ∧ key = pair.text ∧
        market = x.withPair pair := by
  induction l generalizing r with
  | nil => exact .inl h
  | cons x l ih =>
    rcases ih h with h | ⟨y, hy, hmoved⟩
    · exact (get?_kept_add h).imp_right fun hmoved ↦ ⟨x, List.mem_cons_self, hmoved⟩
    · exact .inr ⟨y, List.mem_cons_of_mem x hy, hmoved⟩

theorem get?_renames_foldl_add {l : List Market} {r : Rekeying} {former pair : CurrencyPair}
    (h : (l.foldl Rekeying.add r).renames.get? former = some pair) :
    r.renames.get? former = some pair ∨ ∃ x ∈ l, x.ticker.pair = former ∧
      x.providers.head?.bind defiPair? = some pair := by
  induction l generalizing r with
  | nil => exact .inl h
  | cons x l ih =>
    rcases ih h with h | ⟨y, hy, hmoved⟩
    · exact (get?_renames_add h).imp_right fun hmoved ↦ ⟨x, List.mem_cons_self, hmoved⟩
    · exact .inr ⟨y, List.mem_cons_of_mem x hy, hmoved⟩

/-! ## The stage -/

/-- Every new name is that of a market with `P` that moved. -/
def Renames (c : Config) (P : String → Market → Prop)
    (renames : SortedMap CurrencyPair CurrencyPair) : Prop :=
  ∀ former pair, renames.get? former = some pair →
    ∃ key market, P key market ∧ market.MovesTo c pair ∧ market.ticker.pair = former

theorem Renames.get?_eq_none {P : String → Market → Prop}
    {renames : SortedMap CurrencyPair CurrencyPair} (h : Renames c P renames)
    (hc : ∀ name, c.isDefi name = false) (former : CurrencyPair) : renames.get? former = none := by
  by_contra hne
  obtain ⟨pair, hpair⟩ := Option.ne_none_iff_exists'.1 hne
  obtain ⟨_, _, -, hmoves, -⟩ := h former pair hpair
  exact Market.not_movesTo hc hmoves

theorem movesTo_of_mem {m : MarketMap} {x : Market} (hx : x ∈ m.values.filter (isSingleDefi c))
    {pair : CurrencyPair} (hpair : x.providers.head?.bind defiPair? = some pair) :
    (∃ key, m.get? key = some x) ∧ x.MovesTo c pair := by
  obtain ⟨hx, hsingle⟩ := List.mem_filter.1 hx
  obtain ⟨p, hp, hdefi⟩ := isSingleDefi_iff.1 hsingle
  obtain ⟨⟨key, _⟩, hmem, rfl⟩ := List.mem_map.1 hx
  rw [hp] at hpair
  exact ⟨⟨key, SortedMap.get?_eq_some_iff.2 hmem⟩, p, hp, hdefi, hpair⟩

/-- Where re-keying stands after the last market. -/
def rekeying (c : Config) (m : MarketMap) : Rekeying :=
  (m.values.filter (isSingleDefi c)).foldl Rekeying.add
    ⟨m.filter fun _ market ↦ !isSingleDefi c market, ∅, ∅⟩

theorem rekeyDefiMarkets_eq (m : MarketMap) :
    rekeyDefiMarkets c m =
      .ok ((rekeying c m).kept.mapValues fun _ market ↦ market.follow (rekeying c m).renames,
        (rekeying c m).exclusions) := rfl

/-- Re-keying names only markets that moved. -/
theorem renames_rekeying {P : String → Market → Prop} {m : MarketMap} (hm : m.Forall P) :
    Renames c P (rekeying c m).renames := by
  intro former pair hformer
  rcases get?_renames_foldl_add hformer with hempty | ⟨x, hx, hpair, hmoves⟩
  · cases hempty
  · obtain ⟨⟨key, hkey⟩, hmoves⟩ := movesTo_of_mem hx hmoves
    exact ⟨key, x, hm key x hkey, hmoves, hpair⟩

/-- Every market that is left is made of one of the map before, and follows the markets that
moved. -/
theorem rekeyDefiMarkets_meets {P : String → Market → Prop} :
    Meets c rekeyDefiMarkets (MarketMap.Forall P)
      (MarketMap.Forall fun key market ↦ ∃ renames key₀ market₀, Renames c P renames ∧
        P key₀ market₀ ∧ Rekeyed c renames key₀ market₀ key market) E := by
  refine .of_ok fun m hm ↦ ⟨_, _, rekeyDefiMarkets_eq m, fun key market hmarket ↦ ?_⟩
  rw [SortedMap.get?_mapValues, Option.map_eq_some_iff] at hmarket
  obtain ⟨left, hleft, rfl⟩ := hmarket
  refine ⟨(rekeying c m).renames, ?_⟩
  rcases get?_kept_foldl_add hleft with hkept | ⟨x, hx, pair, hpair, rfl, rfl⟩
  · rw [SortedMap.get?_filter, Option.filter_eq_some_iff, Bool.not_eq_true'] at hkept
    exact ⟨key, left, renames_rekeying hm, hm key left hkept.1, .kept hkept.2⟩
  · obtain ⟨⟨key₀, hkey₀⟩, hmoves⟩ := movesTo_of_mem hx hpair
    exact ⟨key₀, x, renames_rekeying hm, hm key₀ x hkey₀, .moved hmoves⟩

end OracleMarkets
