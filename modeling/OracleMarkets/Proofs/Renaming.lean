import OracleMarkets.Proofs.References

/-!
# The names that re-keying gives

A market that moves sits under the pair that its venue tells, in the quote of the pair by which its
provider is normalized.  Both symbols of this pair are valid, but they may be the same, which the
check of the map finds; and the market may be normalized by itself, which no check finds
(`rekeyDefiMarkets_renamed`).

A market that other providers than one on-chain venue price keeps its name, whatever moves to it.  A
market of one on-chain venue that tells the pair it has already keeps it only if no market with a
smaller key moves there, since the markets of such venues are taken one after another
(`rekeyDefiMarkets_owners`).
-/

namespace OracleMarkets

variable {c : Config} {m : MarketMap} {key : String} {x : Market} {pair : CurrencyPair}

/-! ## Pairs of markets that move -/

/-- The quote of a pair that a venue tells is a symbol if its provider is normalized by a valid
pair. -/
theorem validSymbol_quote_of_defiPair? {p : ProviderConfig} (h : defiPair? p = some pair)
    (hn : ∀ n, p.normalizeBy = some n → n.Valid) : CurrencyPair.ValidSymbol pair.quote := by
  obtain ⟨told, htold, -, hquote⟩ := exists_normal_of_defiPair? h
  rw [hquote]
  cases hp : p.normalizeBy with
  | none => exact htold.quote.valid
  | some n => exact (hn n hp).2.1

/-- The pair that a venue tells is valid unless its provider is normalized to the base of the
pair. -/
theorem valid_iff_of_defiPair? {p : ProviderConfig} (h : defiPair? p = some pair)
    (hn : ∀ n, p.normalizeBy = some n → n.Valid) :
    pair.Valid ↔ ∀ n, p.normalizeBy = some n → n.quote ≠ pair.base := by
  have hsymbols : pair.Valid ↔ pair.base ≠ pair.quote :=
    ⟨fun hvalid ↦ hvalid.2.2,
      fun hne ↦ ⟨validSymbol_base_of_defiPair? h, validSymbol_quote_of_defiPair? h hn, hne⟩⟩
  obtain ⟨told, htold, hbase, hquote⟩ := exists_normal_of_defiPair? h
  rw [hsymbols, hquote]
  cases hp : p.normalizeBy with
  | none =>
    rw [Option.map_none, Option.getD_none, hbase]
    exact iff_of_true htold.ne fun n hn ↦ absurd hn.symm (Option.some_ne_none n)
  | some n =>
    rw [Option.map_some, Option.getD_some]
    constructor
    · rintro hne _ ⟨⟩
      exact hne.symm
    · intro hne
      exact (hne n rfl).symm

/-- A market that is left is normalized by itself exactly if it was so before, or if it moves to the
pair by which it is normalized and the market of that pair is not left. -/
theorem MarketMap.WellKeyed.normalizeBy_eq_own_iff (hm : m.WellKeyed) {p q : ProviderConfig}
    (hq : p.Follows c m q) (h : m.Sits c key x pair) :
    q.normalizeBy = some pair ↔ ∃ n, p.normalizeBy = some n ∧
      (n = x.ticker.pair ∨ (n = pair ∧ ∀ z pair', ¬m.Sits c n.text z pair')) := by
  constructor
  · intro hown
    cases hp : p.normalizeBy with
    | none =>
      rw [hq.none hp] at hown
      cases hown
    | some n =>
      refine ⟨n, rfl, ?_⟩
      by_cases hleft : ∃ z pair', m.Sits c n.text z pair'
      · obtain ⟨z, pair', hsits⟩ := hleft
        rw [hq.moved n z pair' hp hsits, Option.some.injEq] at hown
        obtain ⟨rfl, -⟩ := hm.sits_injective h hsits (congrArg CurrencyPair.text hown.symm)
        exact .inl (hm.pair_eq h.get?_eq)
      · push Not at hleft
        rw [hq.stale n hp hleft, Option.some.injEq] at hown
        exact .inr ⟨hown, hleft⟩
  · rintro ⟨n, hp, rfl | ⟨rfl, hleft⟩⟩
    · obtain rfl := hm.keyed key x h.get?_eq
      exact hq.moved _ x pair hp h
    · exact hq.stale n hp hleft

/-- A market of one on-chain venue in the new map has moved to the pair that the venue tells. -/
theorem MarketMap.WellKeyed.exists_follows_of_get?_rekeyed (hm : m.WellKeyed) {y : Market}
    (hy : (rekeyed c m).get? key = some y) (hsingle : isSingleDefi c y = true) :
    key = y.tickerText ∧ ∃ key₀ x p q, m.Sits c key₀ x y.ticker.pair ∧ x.providers = [p] ∧
      y.providers = [q] ∧ p.Follows c m q ∧ defiPair? p = some y.ticker.pair := by
  obtain ⟨key₀, x, pair, hsits, rfl, -⟩ := hm.exists_sits_of_get?_rekeyed hy
  obtain ⟨_, hy', hticker, hproviders⟩ := hm.exists_get?_rekeyed hsits
  cases hy.symm.trans hy'
  obtain rfl : y.ticker.pair = pair := by rw [hticker]
  obtain ⟨q, hq, hdefi⟩ := isSingleDefi_iff.1 hsingle
  rw [hq] at hproviders
  obtain ⟨p, _, hfollows, hnil, hp⟩ := List.forall₂_cons_right_iff.1 hproviders
  rw [List.forall₂_nil_right_iff.1 hnil] at hp
  have hname : q.name = p.name := by rw [hfollows.eq]
  have hmoves : x.MovesTo c y.ticker.pair := by
    generalize y.ticker.pair = pair at hsits
    cases hsits with
    | kept _ hkept =>
      rw [isSingleDefi_iff.2 ⟨p, hp, hname ▸ hdefi⟩] at hkept
      cases hkept
    | moved _ hmoves => exact hmoves
  have htold := hmoves.told
  rw [hp] at htold
  exact ⟨rfl, key₀, x, p, q, hsits, hp, hq, hfollows, htold⟩

/-- What is sure of a market that has moved: it was `x` with the provider `p` in the map `m`, and it
is `y` with the provider `q` in the map `out`. -/
structure Market.Renamed (c : Config) (m out : MarketMap) (x y : Market) (p q : ProviderConfig) :
    Prop where
  told : defiPair? p = some y.ticker.pair
  base : CurrencyPair.ValidSymbol y.ticker.pair.base
  quote : CurrencyPair.ValidSymbol y.ticker.pair.quote
  /-- The pair is accepted unless the provider is normalized to its base. -/
  validate_iff : y.ticker.pair.validate = .ok () ↔
    ∀ n, p.normalizeBy = some n → n.quote ≠ y.ticker.pair.base
  refused : y.ticker.pair.validate ≠ .ok () → out.validate ≠ .ok ()
  /-- The market is normalized by itself exactly if it was so before, or if it has moved to the pair
  by which it is normalized and the market of that pair is not left. -/
  own_iff : q.normalizeBy = some y.ticker.pair ↔ ∃ n, p.normalizeBy = some n ∧
    (n = x.ticker.pair ∨ (n = y.ticker.pair ∧ ∀ z pair, ¬m.Sits c n.text z pair))

/-- Every market of one on-chain venue in the new map has moved there.  It sits under its ticker,
both symbols of its pair are valid, and so is the pair unless its symbols are the same.  It is
normalized by itself only if it was so before, or if no market is left that had the pair to which it
moves. -/
theorem rekeyDefiMarkets_renamed (c : Config) (m : MarketMap) (hm : m.WellKeyed)
    (hn : m.Forall fun _ market ↦ ∀ n, market.NormalizesBy n → n.Valid) :
    ∃ out exclusions, rekeyDefiMarkets c m = .ok (out, exclusions) ∧
      ∀ key y, out.get? key = some y → isSingleDefi c y = true →
        key = y.tickerText ∧ ∃ key₀ x p q, m.Sits c key₀ x y.ticker.pair ∧ x.providers = [p] ∧
          y.providers = [q] ∧ x.Renamed c m out y p q := by
  refine ⟨rekeyed c m, _, rfl, fun key y hy hsingle ↦ ?_⟩
  obtain ⟨hkey, key₀, x, p, q, hsits, hp, hq, hfollows, htold⟩ :=
    hm.exists_follows_of_get?_rekeyed hy hsingle
  have hvalid : ∀ n, p.normalizeBy = some n → n.Valid := fun n hpn ↦
    hn key₀ x hsits.get?_eq n ⟨p, hp ▸ List.mem_cons_self, hpn⟩
  refine ⟨hkey, key₀, x, p, q, hsits, hp, hq, ?_⟩
  exact {
    told := htold
    base := validSymbol_base_of_defiPair? htold
    quote := validSymbol_quote_of_defiPair? htold hvalid
    validate_iff := CurrencyPair.validate_eq_ok_iff.trans (valid_iff_of_defiPair? htold hvalid)
    refused := fun hrefused hout ↦ hrefused (CurrencyPair.validate_eq_ok_iff.2
      ((MarketMap.validate_eq_ok_iff.1 hout).1 _ y hy).pair)
    own_iff := hm.normalizeBy_eq_own_iff hfollows hsits }

/-- In a map that is accepted, every pair by which a provider is normalized is valid. -/
theorem MarketMap.valid_of_normalizesBy (h : m.validate = .ok ()) :
    m.Forall fun _ market ↦ ∀ n, market.NormalizesBy n → n.Valid := by
  intro key market hmarket n hn
  have hm := WellKeyed.of_validate h
  obtain ⟨normalizer, hnormalizer, -⟩ := (validate_eq_ok_iff.1 h).2 key market hmarket n hn
  rw [hm.pair_eq hnormalizer]
  exact (hm _ normalizer hnormalizer).2

/-- All three markets are of one on-chain venue.  `A` and `B` are normalized by `WETH`, to which `A`
moves; `B` moves to the pair of `USD` with itself; and the venue of `WETH` tells no pair. -/
def selfPricedMap : MarketMap :=
  .ofMarkets [venueMarket "A" "raydium" "weth/x" (some ⟨"WETH", "USD"⟩),
    venueMarket "B" "raydium" "usd/weth" (some ⟨"WETH", "USD"⟩),
    venueMarket "WETH" "raydium" "gold" none]

theorem validate_selfPricedMap : selfPricedMap.validate = .ok () := by decide +kernel

/-- The market `A` comes to be normalized by itself, as it moves to the pair of its normalizer. -/
theorem rekeyDefiMarkets_renamed_selfPriced :
    selfPricedMap.WellKeyed ∧
      (selfPricedMap.Forall fun _ market ↦ ∀ n, market.NormalizesBy n → n.Valid) ∧
      ∃ out exclusions y key x p q,
        rekeyDefiMarkets .onChain selfPricedMap = .ok (out, exclusions) ∧
        out.get? "WETH/USD" = some y ∧ isSingleDefi .onChain y = true ∧ "WETH/USD" = y.tickerText ∧
        selfPricedMap.Sits .onChain key x y.ticker.pair ∧ x.providers = [p] ∧ y.providers = [q] ∧
        x.Renamed .onChain selfPricedMap out y p q := by
  have hm := MarketMap.WellKeyed.of_validate validate_selfPricedMap
  have hn := MarketMap.valid_of_normalizesBy validate_selfPricedMap
  obtain ⟨out, exclusions, hrun, hrenamed⟩ := rekeyDefiMarkets_renamed .onChain selfPricedMap hm hn
  have hsingle : ((rekeyed .onChain selfPricedMap).get? "WETH/USD").map (isSingleDefi .onChain) =
      some true := by decide +kernel
  cases hrun
  obtain ⟨y, hy, hysingle⟩ := Option.map_eq_some_iff.1 hsingle
  obtain ⟨hkey, key, x, p, q, hsits, hp, hq, h⟩ := hrenamed _ y hy hysingle
  exact ⟨hm, hn, _, _, y, key, x, p, q, rfl, hy, hysingle, hkey, hsits, hp, hq, h⟩

/-- A market moves to a pair that is not accepted, and another one to the pair by which its provider
is normalized. -/
theorem exists_renamed_not_sound :
    selfPricedMap.WellKeyed ∧
      (selfPricedMap.Forall fun _ market ↦ ∀ n, market.NormalizesBy n → n.Valid) ∧
      ∃ out exclusions a b, rekeyDefiMarkets .onChain selfPricedMap = .ok (out, exclusions) ∧
        selfPricedMap.get? "USD/USD" = none ∧ out.get? "USD/USD" = some b ∧
        b.ticker.pair.validate = .error (.invalidCurrencyPair "USD/USD") ∧
        out.get? "WETH/USD" = some a ∧ a.providers.map (·.offChainTicker) = ["weth/x"] ∧
        a.providers.map (·.normalizeBy) = [some a.ticker.pair] := by
  have hout : ((rekeyed .onChain selfPricedMap).get? "USD/USD").map
      (fun b ↦ b.ticker.pair.validate) = some (.error (.invalidCurrencyPair "USD/USD")) ∧
      ((rekeyed .onChain selfPricedMap).get? "WETH/USD").map (fun a ↦
        (a.ticker.pair, a.providers.map (·.offChainTicker), a.providers.map (·.normalizeBy))) =
          some (⟨"WETH", "USD"⟩, ["weth/x"], [some ⟨"WETH", "USD"⟩]) := by decide +kernel
  obtain ⟨b, hb, hinvalid⟩ := Option.map_eq_some_iff.1 hout.1
  obtain ⟨a, ha, hself⟩ := Option.map_eq_some_iff.1 hout.2
  simp only [Prod.mk.injEq] at hself
  obtain ⟨hpair, hticker, hnormalizers⟩ := hself
  exact ⟨.of_validate validate_selfPricedMap,
    MarketMap.valid_of_normalizesBy validate_selfPricedMap,
    _, _, a, b, rfl, by decide +kernel, hb, hinvalid, ha, hticker, hpair ▸ hnormalizers⟩

/-! ## Markets that own a name -/

/-- `y` is the market `x`, apart from the pairs by which its providers are normalized. -/
structure Market.KeptAs (x y : Market) : Prop where
  ticker : y.ticker = x.ticker
  providers : List.Forall₂ (fun p q ↦ q = { p with normalizeBy := q.normalizeBy }) x.providers
    y.providers

theorem Market.keptAs_follow (renames : SortedMap CurrencyPair CurrencyPair) (x : Market) :
    x.KeptAs (x.follow renames) :=
  ⟨rfl, List.forall₂_map_right_iff.2 (List.forall₂_same.2 fun _ _ ↦ rfl)⟩

namespace MarketMap.Keyed

variable (hm : m.Keyed)

include hm

/-- A market that sits at a pair is kept but for the names of its normalizers. -/
theorem exists_keptAs_of_sits (h : m.Sits c key x pair) :
    ∃ y, (rekeyed c m).get? pair.text = some y ∧ (x.withPair pair).KeptAs y :=
  ⟨_, hm.get?_rekeyed h, Market.keptAs_follow _ _⟩

/-- A market whose place is taken is recorded. -/
theorem holds_exclusions_of_not_sits (hx : m.get? key = some x) (hmoves : x.MovesTo c pair)
    (h : ¬m.Sits c key x pair) :
    (rekeying c m).exclusions.Holds key
      ⟨s!"defi ticker {pair.text} already present", ",".intercalate x.providerNames, x⟩ := by
  obtain ⟨s, hsits, -, -, -, hexclusions⟩ := hm.exists_rekeying hx hmoves
  refine hexclusions _ _ ?_
  rw [add_of_contains hmoves.told (Bool.of_not_eq_false (mt hsits.1 h)), hm key x hx]
  exact DropLog.holds_record _ _ _ _ _

/-- A market that tells the pair that it has keeps its place if no market with a smaller key moves
there. -/
theorem sits_own (hx : m.get? key = some x) (hmoves : x.MovesTo c x.ticker.pair)
    (hfirst : ∀ key' z, m.get? key' = some z → z.MovesTo c x.ticker.pair → compare key' key ≠ .lt) :
    m.Sits c key x x.ticker.pair :=
  .moved hx hmoves (fun _ ↦ hm.isSingleDefi_of_get?_text hx hmoves.isSingleDefi) hfirst

/-- Of the markets with smaller keys that move to the pair of a market that tells it, too, the first
gets the place. -/
theorem exists_sits_of_lt {key' : String} {z : Market} (hx : m.get? key = some x)
    (hmoves : x.MovesTo c x.ticker.pair) (hz : m.get? key' = some z)
    (hmoves' : z.MovesTo c x.ticker.pair) (hlt : compare key' key = .lt) :
    ∃ key₀ x₀, compare key₀ key = .lt ∧ x₀.MovesTo c x.ticker.pair ∧
      m.Sits c key₀ x₀ x.ticker.pair := by
  obtain ⟨key₀, x₀, hx₀, hmoves₀, hleast⟩ :=
    SortedMap.exists_least (P := (·.MovesTo c x.ticker.pair)) hz hmoves'
  have hsits : m.Sits c key₀ x₀ x.ticker.pair :=
    .moved hx₀ hmoves₀ (fun _ ↦ hm.isSingleDefi_of_get?_text hx hmoves.isSingleDefi) hleast
  refine ⟨key₀, x₀, ?_, hmoves₀, hsits⟩
  cases hcompare : compare key₀ key with
  | lt => rfl
  | eq =>
    obtain rfl := Std.LawfulEqCmp.compare_eq_iff_eq.1 hcompare
    exact absurd hlt (hleast key' z hz hmoves')
  | gt =>
    have hlt' := Std.TransCmp.lt_trans hlt (Std.OrientedCmp.gt_iff_lt.1 hcompare)
    exact absurd hlt' (hleast key' z hz hmoves')

end MarketMap.Keyed

/-- A market that is not one of a single on-chain venue keeps its name.  So does a market of such a
venue that tells the pair that it has, if no market with a smaller key moves to this pair.
Otherwise the first of these markets has the name, and the former owner is recorded as dropped. -/
theorem rekeyDefiMarkets_owners (c : Config) (m : MarketMap) (hm : m.Keyed) :
    ∃ out exclusions, rekeyDefiMarkets c m = .ok (out, exclusions) ∧
      (∀ key x, m.get? key = some x → isSingleDefi c x = false →
        ∃ y, out.get? key = some y ∧ x.KeptAs y) ∧
      ∀ key x, m.get? key = some x → x.MovesTo c x.ticker.pair →
        ((∀ key' z, m.get? key' = some z → z.MovesTo c x.ticker.pair → compare key' key ≠ .lt) →
          ∃ y, out.get? key = some y ∧ x.KeptAs y) ∧
        (∀ key' z, m.get? key' = some z → z.MovesTo c x.ticker.pair → compare key' key = .lt →
          exclusions.Holds key
            ⟨s!"defi ticker {key} already present", ",".intercalate x.providerNames, x⟩ ∧
          ∃ key₀ x₀ y, compare key₀ key = .lt ∧ m.get? key₀ = some x₀ ∧
            x₀.MovesTo c x.ticker.pair ∧ out.get? key = some y ∧
            (x₀.withPair x.ticker.pair).KeptAs y) := by
  refine ⟨rekeyed c m, _, rfl, fun key x hx hkept ↦ ?_,
    fun key x hx hmoves ↦ ⟨fun hfirst ↦ ?_, fun key' z hz hmoves' hlt ↦ ?_⟩⟩
  · obtain rfl := hm key x hx
    exact hm.exists_keptAs_of_sits (.kept hx hkept)
  · obtain rfl := hm key x hx
    exact hm.exists_keptAs_of_sits (hm.sits_own hx hmoves hfirst)
  · obtain ⟨key₀, x₀, hlt₀, hmoves₀, hsits₀⟩ := hm.exists_sits_of_lt hx hmoves hz hmoves' hlt
    obtain ⟨y, hy, hkept⟩ := hm.exists_keptAs_of_sits hsits₀
    have hnot : ¬m.Sits c key x x.ticker.pair := by
      intro hsits
      cases hsits with
      | kept _ hkept => exact absurd hkept hmoves.isSingleDefi_ne_false
      | moved _ _ _ hfirst => exact hfirst key' z hz hmoves' hlt
    have hkey : key = x.ticker.pair.text := hm key x hx
    have hrecord := hm.holds_exclusions_of_not_sits hx hmoves hnot
    rw [← hkey] at hy hrecord
    exact ⟨hrecord, key₀, x₀, y, hlt₀, hsits₀.get?_eq, hmoves₀, hy, hkept⟩

/-- `K` has another venue than the on-chain one, and `B` and `C` tell the pairs that they have.  `A`
moves to the pair of `B`, `D` to that of `C`, and `L` to that of `K`. -/
def claimedMap : MarketMap :=
  .ofMarkets [venueMarket "A" "raydium" "b/usd" none, venueMarket "B" "raydium" "B/USD" none,
    venueMarket "C" "raydium" "C/USD" none, venueMarket "D" "raydium" "c/usd" none,
    venueMarket "K" "kraken" "K-USD" none, venueMarket "L" "raydium" "k/usd" none]

theorem keyed_claimedMap : claimedMap.Keyed := MarketMap.keyed_of_validate (by decide +kernel)

theorem movesTo_venueMarket {base offChainTicker : String} {pair : CurrencyPair}
    (h : defiPair? (ProviderConfig.ofVenue "raydium" offChainTicker) = some pair) :
    (venueMarket base "raydium" offChainTicker none).MovesTo .onChain pair := by
  have hdefi : Config.onChain.isDefi "raydium" = true := by decide +kernel
  exact ⟨_, rfl, hdefi, h⟩

/-- The markets `K` and `C` stay, and `B` is left out, since `A` comes before it. -/
theorem rekeyDefiMarkets_owners_claimed :
    claimedMap.Keyed ∧ ∃ out exclusions,
      rekeyDefiMarkets .onChain claimedMap = .ok (out, exclusions) ∧
      (∃ y, out.get? "K/USD" = some y ∧ (venueMarket "K" "kraken" "K-USD" none).KeptAs y) ∧
      (∃ y, out.get? "C/USD" = some y ∧ (venueMarket "C" "raydium" "C/USD" none).KeptAs y) ∧
      exclusions.Holds "B/USD" ⟨"defi ticker B/USD already present", "raydium",
        venueMarket "B" "raydium" "B/USD" none⟩ := by
  obtain ⟨out, exclusions, hrun, hkept, howners⟩ :=
    rekeyDefiMarkets_owners .onChain claimedMap keyed_claimedMap
  have hfirst : ∀ e ∈ claimedMap.toList, compare e.1 "C/USD" = .lt →
      e.2.providers.head?.bind defiPair? ≠ some ⟨"C", "USD"⟩ := by decide +kernel
  refine ⟨keyed_claimedMap, out, exclusions, hrun, ?_, ?_, ?_⟩
  · exact hkept _ _ (by decide +kernel) (by decide +kernel)
  · refine (howners _ _ (by decide +kernel) (movesTo_venueMarket (by decide +kernel))).1
      fun key' z hz hmoves hlt ↦ ?_
    exact hfirst _ (SortedMap.get?_eq_some_iff.1 hz) hlt hmoves.told
  · exact ((howners "B/USD" (venueMarket "B" "raydium" "B/USD" none) (by decide +kernel)
      (movesTo_venueMarket (by decide +kernel))).2 "A/USD" (venueMarket "A" "raydium" "b/usd" none)
      (by decide +kernel) (movesTo_venueMarket (by decide +kernel)) (by decide +kernel)).1

/-- A market of one on-chain venue that tells the pair that it has loses its name to one with a
smaller key. -/
theorem exists_owner_not_kept :
    claimedMap.Keyed ∧ ∃ x out exclusions y, claimedMap.get? "B/USD" = some x ∧
      x.MovesTo .onChain x.ticker.pair ∧
      rekeyDefiMarkets .onChain claimedMap = .ok (out, exclusions) ∧ out.get? "B/USD" = some y ∧
      ¬x.KeptAs y := by
  have hout : (rekeyed .onChain claimedMap).get? "B/USD" =
      some ((venueMarket "A" "raydium" "b/usd" none).withPair ⟨"B", "USD"⟩) := by decide +kernel
  refine ⟨keyed_claimedMap, venueMarket "B" "raydium" "B/USD" none, _, _, _, by decide +kernel,
    movesTo_venueMarket (by decide +kernel), rfl, hout, fun hkept ↦ ?_⟩
  obtain ⟨_, _, hticker, -, hlist⟩ := List.forall₂_cons_left_iff.1 hkept.providers
  obtain ⟨rfl, -⟩ := List.cons.inj hlist
  simp [ProviderConfig.ofVenue] at hticker

end OracleMarkets
