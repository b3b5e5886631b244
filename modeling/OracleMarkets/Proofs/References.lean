import OracleMarkets.Proofs.Filters

/-!
# What re-keying does to markets and to references to them

Re-keying drops a market only if the ticker of its venue tells no pair, or if the pair that it tells
is taken; the latter is recorded.  Every other market has a place in the new map (`MarketMap.Sits`),
no two have the same, and a provider that was normalized by a market that is left is normalized by
the pair of its new place.  So the new names are substituted for the old ones all at once, also
where one market moves to the former pair of another.

A reference to a market that is dropped stays as it is.  It names no market then, unless another
market of one on-chain venue moves to the pair that has become free.
-/

namespace OracleMarkets

variable {c : Config} {m : MarketMap} {key : String} {x : Market} {pair : CurrencyPair}

/-! ## The pairs that venues tell -/

/-- A provider tells no pair exactly if its off-chain ticker is none. -/
theorem defiPair?_eq_none_iff {p : ProviderConfig} :
    defiPair? p = none ↔ CurrencyPair.ofText? p.offChainTicker = none := by
  cases h : CurrencyPair.ofText? p.offChainTicker <;> simp [defiPair?, h]

/-- The base of a pair that a venue tells is a symbol, whatever the provider is normalized by. -/
theorem validSymbol_base_of_defiPair? {p : ProviderConfig} (h : defiPair? p = some pair) :
    CurrencyPair.ValidSymbol pair.base := by
  obtain ⟨told, htold, hbase, -⟩ := exists_normal_of_defiPair? h
  rw [hbase]
  exact htold.base.valid

namespace Market

theorem MovesTo.isSingleDefi (h : x.MovesTo c pair) : isSingleDefi c x = true := by
  obtain ⟨p, hp, hdefi, -⟩ := h
  exact isSingleDefi_iff.2 ⟨p, hp, hdefi⟩

theorem MovesTo.isSingleDefi_ne_false (h : x.MovesTo c pair) :
    OracleMarkets.isSingleDefi c x ≠ false :=
  Bool.ne_false_iff.2 h.isSingleDefi

theorem MovesTo.told (h : x.MovesTo c pair) : x.providers.head?.bind defiPair? = some pair := by
  obtain ⟨p, hp, -, htold⟩ := h
  rw [hp]
  exact htold

theorem movesTo_of_told (hsingle : OracleMarkets.isSingleDefi c x = true)
    (h : x.providers.head?.bind defiPair? = some pair) : x.MovesTo c pair := by
  obtain ⟨p, hp, hdefi⟩ := isSingleDefi_iff.1 hsingle
  rw [hp] at h
  exact ⟨p, hp, hdefi, h⟩

theorem MovesTo.notMem_base (h : x.MovesTo c pair) : '/' ∉ pair.base.toList := by
  obtain ⟨p, -, -, htold⟩ := h
  exact (validSymbol_base_of_defiPair? htold).2.1

/-- The only provider of the market is an on-chain venue whose ticker is no pair. -/
def isUntold (c : Config) (x : Market) : Bool :=
  OracleMarkets.isSingleDefi c x &&
    x.providers.all fun p ↦ (CurrencyPair.ofText? p.offChainTicker).isNone

theorem isUntold_eq (c : Config) (x : Market) :
    x.isUntold c = (OracleMarkets.isSingleDefi c x &&
      (x.providers.head?.bind defiPair?).isNone) := by
  rw [isUntold, Bool.eq_iff_iff, Bool.and_eq_true, Bool.and_eq_true]
  refine and_congr_right fun hsingle ↦ ?_
  obtain ⟨p, hp, -⟩ := isSingleDefi_iff.1 hsingle
  simp [hp, defiPair?_eq_none_iff]

end Market

/-! ## Places in the new map -/

/-- Re-keying leaves the market of `m` at `key` and puts it under a pair. -/
inductive MarketMap.Sits (c : Config) (m : MarketMap) (key : String) (x : Market) :
    CurrencyPair → Prop
  | kept (hx : m.get? key = some x) (h : isSingleDefi c x = false) : Sits c m key x x.ticker.pair
  /-- A market of one on-chain venue moves to the pair that the venue tells if no market stays under
  that pair, and no market with a smaller key moves to it. -/
  | moved {pair : CurrencyPair} (hx : m.get? key = some x) (hmoves : x.MovesTo c pair)
    (hfree : ∀ z, m.get? pair.text = some z → isSingleDefi c z = true)
    (hfirst : ∀ key' z, m.get? key' = some z → z.MovesTo c pair → compare key' key ≠ .lt) :
    Sits c m key x pair

/-- Every market stands under its ticker, which is that of a valid pair. -/
def MarketMap.WellKeyed (m : MarketMap) : Prop :=
  m.Forall fun key market ↦ key = market.tickerText ∧ market.ticker.pair.Valid

/-- `q` is the provider `p` in the new map: it is normalized by the pair under which the market that
it named now sits, and by the same pair as before if that market is not left. -/
structure ProviderConfig.Follows (c : Config) (m : MarketMap) (p q : ProviderConfig) : Prop where
  eq : q = { p with normalizeBy := q.normalizeBy }
  none : p.normalizeBy = none → q.normalizeBy = none
  moved : ∀ n z pair, p.normalizeBy = some n → m.Sits c n.text z pair → q.normalizeBy = some pair
  /-- Any other name stays. -/
  stale : ∀ n, p.normalizeBy = some n → (∀ z pair, ¬m.Sits c n.text z pair) →
    q.normalizeBy = some n

namespace MarketMap

theorem Sits.get?_eq (h : m.Sits c key x pair) : m.get? key = some x := by
  cases h <;> assumption

/-- A market whose venue tells no pair has no place. -/
theorem not_sits_of_isUntold (h : x.isUntold c = true) : ¬m.Sits c key x pair := by
  rw [Market.isUntold_eq, Bool.and_eq_true] at h
  intro hsits
  cases hsits with
  | kept _ hkept =>
    rw [hkept] at h
    cases h.1
  | moved _ hmoves =>
    rw [hmoves.told] at h
    cases h.2

namespace Keyed

variable (hm : m.Keyed)

include hm

theorem get?_text (hx : m.get? key = some x) : m.get? x.ticker.pair.text = some x := by
  obtain rfl := hm key x hx
  exact hx

/-- No two markets have the same pair. -/
theorem eq_of_pair_eq {key' : String} {y : Market} (hx : m.get? key = some x)
    (hy : m.get? key' = some y) (h : x.ticker.pair = y.ticker.pair) : key = key' ∧ x = y := by
  obtain rfl := hm key x hx
  obtain rfl := hm key' y hy
  rw [Market.tickerText, Market.tickerText, h] at *
  exact ⟨rfl, Option.some.inj (hx.symm.trans hy)⟩

/-- No market stays under the pair of one that may move. -/
theorem isSingleDefi_of_get?_text (hx : m.get? key = some x) (hsingle : isSingleDefi c x = true)
    {z : Market} (hz : m.get? x.ticker.pair.text = some z) : isSingleDefi c z = true := by
  rw [hm.get?_text hx] at hz
  cases hz
  exact hsingle

/-- The pairs of markets under other keys are others. -/
theorem pair_ne_of_key_ne {y : Market} {key' : String} (hy : m.get? key' = some y)
    (hx : m.get? key = some x) (hne : key' ≠ key) : y.ticker.pair ≠ x.ticker.pair :=
  fun h ↦ hne (hm.eq_of_pair_eq hy hx h).1

end Keyed

namespace WellKeyed

variable (hm : m.WellKeyed)

include hm

omit hm in
/-- An accepted map is well keyed. -/
theorem of_validate (h : m.validate = .ok ()) : m.WellKeyed := fun key market hmarket ↦
  have hvalid := (validate_eq_ok_iff.1 h).1 key market hmarket
  ⟨hvalid.key_eq, hvalid.pair⟩

theorem keyed : m.Keyed := fun key market hmarket ↦ (hm key market hmarket).1

/-- A pair names the market whose pair it is. -/
theorem pair_eq {n : CurrencyPair} (hx : m.get? n.text = some x) : n = x.ticker.pair := by
  obtain ⟨htext, hvalid⟩ := hm n.text x hx
  exact hvalid.eq_of_text htext

/-- Under a text sits one market. -/
theorem sits_injective {key' : String} {y : Market} {pair' : CurrencyPair}
    (h : m.Sits c key x pair) (h' : m.Sits c key' y pair') (htext : pair.text = pair'.text) :
    key = key' ∧ pair = pair' := by
  cases h with
  | kept hx hkept =>
    cases h' with
    | kept hy hkept' =>
      have hxy : x = y := by
        have hx := hm.keyed.get?_text hx
        rw [htext, hm.keyed.get?_text hy] at hx
        exact (Option.some.inj hx).symm
      subst hxy
      exact ⟨(hm.keyed.eq_of_pair_eq hx hy rfl).1, rfl⟩
    | moved _ _ hfree _ =>
      rw [hfree x (htext ▸ hm.keyed.get?_text hx)] at hkept
      cases hkept
  | moved hx hmoves hfree hfirst =>
    cases h' with
    | kept hy hkept' =>
      rw [hfree y (htext ▸ hm.keyed.get?_text hy)] at hkept'
      cases hkept'
    | moved hy hmoves' _ hfirst' =>
      obtain rfl := CurrencyPair.eq_of_text_eq_of_notMem hmoves.notMem_base hmoves'.notMem_base
        htext
      refine ⟨?_, rfl⟩
      cases hcompare : compare key key' with
      | lt => exact absurd hcompare (hfirst' key x hx hmoves)
      | eq => exact Std.LawfulEqCmp.compare_eq_iff_eq.1 hcompare
      | gt => exact absurd (Std.OrientedCmp.gt_iff_lt.1 hcompare) (hfirst key' y hy hmoves')

end WellKeyed

end MarketMap

/-! ## One market after another -/

section

variable {r : Rekeying}

theorem add_of_told_eq_none (h : x.providers.head?.bind defiPair? = none) : r.add x = r := by
  rw [Rekeying.add, h]

theorem add_of_contains (h : x.providers.head?.bind defiPair? = some pair)
    (hcontains : r.kept.contains pair.text = true) :
    r.add x = { r with
      exclusions := r.exclusions.recordMarket x s!"defi ticker {pair.text} already present" } := by
  rw [Rekeying.add, h]
  exact if_pos hcontains

theorem add_of_not_contains (h : x.providers.head?.bind defiPair? = some pair)
    (hcontains : r.kept.contains pair.text = false) :
    r.add x = { r with
      kept := r.kept.insert pair.text (x.withPair pair)
      renames :=
        if pair = x.ticker.pair then r.renames else r.renames.insert x.ticker.pair pair } := by
  rw [Rekeying.add, h]
  exact if_neg (by simp [hcontains])

theorem get?_kept_add_of_eq_some {k : String} {z : Market} (h : r.kept.get? k = some z) :
    (r.add x).kept.get? k = some z := by
  cases htold : x.providers.head?.bind defiPair? with
  | none => rwa [add_of_told_eq_none htold]
  | some pair =>
    cases hcontains : r.kept.contains pair.text with
    | true => rwa [add_of_contains htold hcontains]
    | false =>
      have hne : k ≠ pair.text := by
        rintro rfl
        rw [SortedMap.contains, h] at hcontains
        cases hcontains
      rw [add_of_not_contains htold hcontains, SortedMap.get?_insert, if_neg hne]
      exact h

/-- Every market that has a place keeps it. -/
theorem get?_kept_foldl_add_of_eq_some {l : List Market} {k : String} {z : Market}
    (h : r.kept.get? k = some z) : (l.foldl Rekeying.add r).kept.get? k = some z := by
  induction l generalizing r with
  | nil => exact h
  | cons x l ih => exact ih (get?_kept_add_of_eq_some h)

theorem contains_kept_add (h : x.providers.head?.bind defiPair? = some pair) :
    (r.add x).kept.contains pair.text = true := by
  cases hcontains : r.kept.contains pair.text with
  | true => rwa [add_of_contains h hcontains]
  | false =>
    rw [add_of_not_contains h hcontains, SortedMap.contains, SortedMap.get?_insert, if_pos rfl]
    rfl

/-- What a venue of the list tells is taken at the end. -/
theorem contains_kept_foldl_add {l : List Market} (hx : x ∈ l)
    (h : x.providers.head?.bind defiPair? = some pair) :
    (l.foldl Rekeying.add r).kept.contains pair.text = true := by
  obtain ⟨before, after, rfl⟩ := List.append_of_mem hx
  rw [List.foldl_append, List.foldl_cons]
  obtain ⟨z, hz⟩ := Option.isSome_iff_exists.1 (contains_kept_add (r := before.foldl _ r) h)
  rw [SortedMap.contains, get?_kept_foldl_add_of_eq_some hz]
  rfl

theorem get?_renames_add_of_ne {former : CurrencyPair} (h : x.ticker.pair ≠ former) :
    (r.add x).renames.get? former = r.renames.get? former := by
  cases htold : x.providers.head?.bind defiPair? with
  | none => rw [add_of_told_eq_none htold]
  | some pair =>
    cases hcontains : r.kept.contains pair.text with
    | true => rw [add_of_contains htold hcontains]
    | false =>
      rw [add_of_not_contains htold hcontains]
      dsimp only
      split
      · rfl
      · rw [SortedMap.get?_insert, if_neg h.symm]

/-- The new name of a pair is written at the market of that pair and not touched afterwards. -/
theorem get?_renames_foldl_add_of_forall_ne {l : List Market} {former : CurrencyPair}
    (h : ∀ y ∈ l, y.ticker.pair ≠ former) :
    (l.foldl Rekeying.add r).renames.get? former = r.renames.get? former := by
  induction l generalizing r with
  | nil => rfl
  | cons y l ih =>
    obtain ⟨hy, hl⟩ := List.forall_mem_cons.1 h
    rw [List.foldl_cons, ih hl, get?_renames_add_of_ne hy]

theorem holds_exclusions_add {k : String} {d : Drop Market} (h : r.exclusions.Holds k d) :
    (r.add x).exclusions.Holds k d := by
  cases htold : x.providers.head?.bind defiPair? with
  | none => rwa [add_of_told_eq_none htold]
  | some pair =>
    cases hcontains : r.kept.contains pair.text with
    | true =>
      rw [add_of_contains htold hcontains]
      exact h.append _ _
    | false => rwa [add_of_not_contains htold hcontains]

/-- What is recorded stays in the log. -/
theorem holds_exclusions_foldl_add {l : List Market} {k : String} {d : Drop Market}
    (h : r.exclusions.Holds k d) : (l.foldl Rekeying.add r).exclusions.Holds k d := by
  induction l generalizing r with
  | nil => exact h
  | cons x l ih => exact ih (holds_exclusions_add h)

/-- One market more has a place, is recorded, or has no pair told. -/
theorem size_add (r : Rekeying) (x : Market) :
    (r.add x).kept.size + (r.add x).exclusions.count +
        (if (x.providers.head?.bind defiPair?).isNone then 1 else 0) =
      r.kept.size + r.exclusions.count + 1 := by
  cases htold : x.providers.head?.bind defiPair? with
  | none => rw [add_of_told_eq_none htold, Option.isNone_none, if_pos rfl]
  | some pair =>
    rw [Option.isNone_some, if_neg Bool.false_ne_true, Nat.add_zero]
    cases hcontains : r.kept.contains pair.text with
    | true => rw [add_of_contains htold hcontains, DropLog.count_recordMarket, Nat.add_assoc]
    | false =>
      rw [add_of_not_contains htold hcontains,
        SortedMap.size_insert (Option.not_isSome_iff_eq_none.1 (Bool.eq_false_iff.1 hcontains))]
      exact Nat.add_right_comm _ _ _

/-- Every market of the list has a place, is recorded, or has no pair told. -/
theorem size_foldl_add (l : List Market) (r : Rekeying) :
    (l.foldl Rekeying.add r).kept.size + (l.foldl Rekeying.add r).exclusions.count +
        (l.filter fun x ↦ (x.providers.head?.bind defiPair?).isNone).length =
      r.kept.size + r.exclusions.count + l.length := by
  induction l generalizing r with
  | nil => rfl
  | cons x l ih =>
    have hstep := size_add r x
    have hrest := ih (r.add x)
    rw [List.foldl_cons, List.filter_cons, List.length_cons]
    split at hstep
    · next hnone =>
      rw [if_pos hnone, List.length_cons]
      omega
    · next hsome =>
      rw [if_neg hsome]
      omega

end

/-! ## The run -/

/-- The markets that may move, split at one of them: before it come those of smaller keys. -/
theorem exists_filter_values_eq (hx : m.get? key = some x) (hsingle : isSingleDefi c x = true) :
    ∃ before after, m.values.filter (isSingleDefi c) = before ++ x :: after ∧
      (∀ y, y ∈ before ↔
        ∃ key', compare key' key = .lt ∧ m.get? key' = some y ∧ isSingleDefi c y = true) ∧
      ∀ y ∈ after, ∃ key', compare key key' = .lt ∧ m.get? key' = some y := by
  obtain ⟨before, after, hlist, hbefore, hafter⟩ := SortedMap.exists_toList_eq_append hx
  refine ⟨(before.map (·.2)).filter (isSingleDefi c), (after.map (·.2)).filter (isSingleDefi c),
    ?_, fun y ↦ ?_, fun y hy ↦ ?_⟩
  · rw [SortedMap.values, hlist, List.map_append, List.map_cons, List.filter_append,
      List.filter_cons_of_pos hsingle]
  · rw [List.mem_filter, List.mem_map]
    constructor
    · rintro ⟨⟨⟨key', _⟩, he, rfl⟩, hy⟩
      have hmem : (key', _) ∈ m.toList := hlist ▸ List.mem_append_left _ he
      exact ⟨key', hbefore _ he, SortedMap.get?_eq_some_iff.2 hmem, hy⟩
    · rintro ⟨key', hlt, hkey', hy⟩
      have hmem := SortedMap.get?_eq_some_iff.1 hkey'
      rw [hlist, List.mem_append, List.mem_cons] at hmem
      rcases hmem with hmem | hmem | hmem
      · exact ⟨⟨_, hmem, rfl⟩, hy⟩
      · cases hmem
        simp at hlt
      · have hcycle := Std.TransCmp.lt_trans hlt (hafter _ hmem)
        simp at hcycle
  · obtain ⟨⟨⟨key', _⟩, he, rfl⟩, -⟩ :=
      (List.mem_filter.1 hy).imp_left List.mem_map.1
    have hmem : (key', _) ∈ m.toList := hlist ▸ List.mem_append_right _ (List.mem_cons_of_mem _ he)
    exact ⟨key', hafter _ he, SortedMap.get?_eq_some_iff.2 hmem⟩

/-- The markets that stay are there before any market moves. -/
theorem get?_stays {k : String} {z : Market} :
    (m.filter fun _ market ↦ !isSingleDefi c market).get? k = some z ↔
      m.get? k = some z ∧ isSingleDefi c z = false := by
  rw [SortedMap.get?_filter, Option.filter_eq_some_iff, Bool.not_eq_true']

/-- Once the markets of smaller keys had their turn, what the venue of a market tells is free
exactly if the market gets that place. -/
theorem not_contains_iff_sits {r : Rekeying} {before : List Market} (hx : m.get? key = some x)
    (hmoves : x.MovesTo c pair)
    (hr : ∀ k z, r.kept.get? k = some z ↔ m.get? k = some z ∧ isSingleDefi c z = false)
    (hbefore : ∀ y, y ∈ before ↔
      ∃ key', compare key' key = .lt ∧ m.get? key' = some y ∧ isSingleDefi c y = true) :
    (before.foldl Rekeying.add r).kept.contains pair.text = false ↔ m.Sits c key x pair := by
  constructor
  · intro hfree
    refine .moved hx hmoves (fun z hz ↦ ?_) fun key' z hz hmoves' hlt ↦ ?_
    · by_contra hstays
      rw [SortedMap.contains, get?_kept_foldl_add_of_eq_some
        ((hr _ _).2 ⟨hz, Bool.eq_false_iff.2 hstays⟩)] at hfree
      cases hfree
    · rw [contains_kept_foldl_add ((hbefore z).2 ⟨key', hlt, hz, hmoves'.isSingleDefi⟩)
        hmoves'.told] at hfree
      cases hfree
  · intro hsits
    cases hsits with
    | kept _ hkept => exact absurd hkept hmoves.isSingleDefi_ne_false
    | moved _ _ hfree hfirst =>
      refine Bool.eq_false_iff.2 fun hcontains ↦ ?_
      obtain ⟨z, hz⟩ := Option.isSome_iff_exists.1 hcontains
      rcases get?_kept_foldl_add hz with hstays | ⟨y, hy, pair', htold, htext, -⟩
      · obtain ⟨hz, hstays⟩ := (hr _ _).1 hstays
        rw [hfree z hz] at hstays
        cases hstays
      · obtain ⟨key', hlt, hkey', hsingle⟩ := (hbefore y).1 hy
        have hmoves' := Market.movesTo_of_told hsingle htold
        obtain rfl := CurrencyPair.eq_of_text_eq_of_notMem hmoves.notMem_base hmoves'.notMem_base
          htext
        exact hfirst key' y hkey' hmoves' hlt

/-- Every new name is that of a market that moved. -/
theorem exists_movesTo_of_get?_renames {former : CurrencyPair}
    (h : (rekeying c m).renames.get? former = some pair) :
    ∃ key x, m.get? key = some x ∧ x.MovesTo c pair ∧ x.ticker.pair = former :=
  renames_rekeying (P := fun key x ↦ m.get? key = some x) (fun _ _ hx ↦ hx) former pair h

namespace MarketMap.Keyed

variable (hm : m.Keyed)

include hm

/-- Where re-keying stands when it comes to a market: what the venue tells is free exactly if the
market gets that place, and the rest of the run changes nothing about it. -/
theorem exists_rekeying (hx : m.get? key = some x) (hmoves : x.MovesTo c pair) :
    ∃ s : Rekeying, (s.kept.contains pair.text = false ↔ m.Sits c key x pair) ∧
      s.renames.get? x.ticker.pair = none ∧
      (∀ k z, (s.add x).kept.get? k = some z → (rekeying c m).kept.get? k = some z) ∧
      (rekeying c m).renames.get? x.ticker.pair = (s.add x).renames.get? x.ticker.pair ∧
      ∀ k d, (s.add x).exclusions.Holds k d → (rekeying c m).exclusions.Holds k d := by
  obtain ⟨before, after, hlist, hbefore, hafter⟩ := exists_filter_values_eq hx hmoves.isSingleDefi
  have hsmaller : ∀ y ∈ before, y.ticker.pair ≠ x.ticker.pair := by
    intro y hy
    obtain ⟨key', hlt, hkey', -⟩ := (hbefore y).1 hy
    refine hm.pair_ne_of_key_ne hkey' hx ?_
    rintro rfl
    simp at hlt
  have hgreater : ∀ y ∈ after, y.ticker.pair ≠ x.ticker.pair := by
    intro y hy
    obtain ⟨key', hlt, hkey'⟩ := hafter y hy
    refine hm.pair_ne_of_key_ne hkey' hx ?_
    rintro rfl
    simp at hlt
  have hrun : rekeying c m = after.foldl Rekeying.add ((before.foldl Rekeying.add
      ⟨m.filter fun _ market ↦ !isSingleDefi c market, ∅, ∅⟩).add x) := by
    rw [rekeying, hlist, List.foldl_append, List.foldl_cons]
  rw [hrun]
  refine ⟨_, not_contains_iff_sits hx hmoves (fun _ _ ↦ get?_stays) hbefore, ?_,
    fun k z hz ↦ get?_kept_foldl_add_of_eq_some hz, get?_renames_foldl_add_of_forall_ne hgreater,
    fun k d hd ↦ holds_exclusions_foldl_add hd⟩
  rw [get?_renames_foldl_add_of_forall_ne hsmaller]
  rfl

/-- A market that sits at a pair is left there. -/
theorem get?_kept_of_sits (h : m.Sits c key x pair) :
    (rekeying c m).kept.get? pair.text = some (x.withPair pair) := by
  cases h with
  | kept hx hkept => exact get?_kept_foldl_add_of_eq_some (get?_stays.2 ⟨hm.get?_text hx, hkept⟩)
  | moved hx hmoves hfree hfirst =>
    obtain ⟨s, hsits, -, hkept, -⟩ := hm.exists_rekeying hx hmoves
    refine hkept _ _ ?_
    rw [add_of_not_contains hmoves.told (hsits.2 (.moved hx hmoves hfree hfirst)),
      SortedMap.get?_insert, if_pos rfl]

end MarketMap.Keyed

namespace MarketMap.WellKeyed

variable (hm : m.WellKeyed)

include hm

/-- Only markets that sit at a pair are left. -/
theorem exists_sits_of_get?_kept {k : String} {z : Market}
    (h : (rekeying c m).kept.get? k = some z) :
    ∃ key x pair, m.Sits c key x pair ∧ k = pair.text ∧ z = x.withPair pair := by
  rcases get?_kept_foldl_add h with hstays | ⟨y, hy, pair, htold, rfl, -⟩
  · obtain ⟨hz, hstays⟩ := get?_stays.1 hstays
    exact ⟨k, z, z.ticker.pair, .kept hz hstays, (hm k z hz).1, rfl⟩
  · obtain ⟨⟨key, hkey⟩, hmoves⟩ := movesTo_of_mem hy htold
    by_cases hfree : ∀ z, m.get? pair.text = some z → isSingleDefi c z = true
    · -- Of the markets that move to the pair, that of the least key gets the place.
      obtain ⟨key₀, x₀, hx₀, hmoves₀, hfirst⟩ :=
        SortedMap.exists_least (P := (·.MovesTo c pair)) hkey hmoves
      have hsits : m.Sits c key₀ x₀ pair := .moved hx₀ hmoves₀ hfree hfirst
      have hz := hm.keyed.get?_kept_of_sits hsits
      rw [h] at hz
      exact ⟨key₀, x₀, pair, hsits, rfl, Option.some.inj hz⟩
    · push Not at hfree
      obtain ⟨z₀, hz₀, hstays⟩ := hfree
      have hsits : m.Sits c pair.text z₀ z₀.ticker.pair := .kept hz₀ (Bool.eq_false_iff.2 hstays)
      have hz := hm.keyed.get?_kept_of_sits hsits
      rw [← hm.pair_eq hz₀, h] at hz
      exact ⟨_, z₀, _, hsits, congrArg _ (hm.pair_eq hz₀),
        by rw [Option.some.inj hz, hm.pair_eq hz₀]⟩

/-- The new name of a market that is left is that of its place. -/
theorem getD_renames_of_sits {n : CurrencyPair} (h : m.Sits c n.text x pair) :
    (rekeying c m).renames.getD n n = pair := by
  obtain rfl := hm.pair_eq h.get?_eq
  rw [SortedMap.getD]
  cases h with
  | kept hx hkept =>
    cases hrenamed : (rekeying c m).renames.get? x.ticker.pair with
    | none => rfl
    | some new =>
      obtain ⟨key', y, hy, hmoves, hpair⟩ := exists_movesTo_of_get?_renames hrenamed
      obtain rfl := (hm.keyed.eq_of_pair_eq hx hy hpair.symm).2
      exact absurd hkept hmoves.isSingleDefi_ne_false
  | moved hx hmoves hfree hfirst =>
    obtain ⟨s, hsits, hnone, -, hrenames, -⟩ := hm.keyed.exists_rekeying hx hmoves
    rw [hrenames, add_of_not_contains hmoves.told (hsits.2 (.moved hx hmoves hfree hfirst))]
    dsimp only
    split
    · next hsame => rw [hnone, Option.getD_none, hsame]
    · rw [SortedMap.get?_insert, if_pos rfl, Option.getD_some]

/-- Only a market that is left gets a new name. -/
theorem getD_renames_of_not_sits {n : CurrencyPair} (h : ∀ x pair, ¬m.Sits c n.text x pair) :
    (rekeying c m).renames.getD n n = n := by
  rw [SortedMap.getD]
  cases hrenamed : (rekeying c m).renames.get? n with
  | none => rfl
  | some new =>
    obtain ⟨key, x, hx, hmoves, rfl⟩ := exists_movesTo_of_get?_renames hrenamed
    obtain ⟨s, hsits, hnone, -, hrenames, -⟩ := hm.keyed.exists_rekeying hx hmoves
    cases hcontains : s.kept.contains new.text with
    | false =>
      obtain ⟨rfl, -⟩ := hm key x hx
      exact absurd (hsits.1 hcontains) (h x new)
    | true =>
      rw [hrenames, add_of_contains hmoves.told hcontains, hnone] at hrenamed
      cases hrenamed

theorem follows_follow (p : ProviderConfig) : p.Follows c m (p.follow (rekeying c m).renames) where
  eq := rfl
  none h := by rw [ProviderConfig.follow, h, Option.map_none]
  moved n z pair h hsits := by
    rw [ProviderConfig.follow, h, Option.map_some, hm.getD_renames_of_sits hsits]
  stale n h hstale := by
    rw [ProviderConfig.follow, h, Option.map_some, hm.getD_renames_of_not_sits hstale]

end MarketMap.WellKeyed

/-- Every market of the map has a place in the new map, is recorded, or has no pair told. -/
theorem size_rekeying (c : Config) (m : MarketMap) :
    (rekeying c m).kept.size + (rekeying c m).exclusions.count +
      (m.values.filter (Market.isUntold c)).length = m.size := by
  have hrun := size_foldl_add (m.values.filter (isSingleDefi c))
    ⟨m.filter fun _ market ↦ !isSingleDefi c market, ∅, ∅⟩
  have huntold : (m.values.filter (isSingleDefi c)).filter
      (fun x ↦ (x.providers.head?.bind defiPair?).isNone) =
        m.values.filter (Market.isUntold c) := by
    rw [List.filter_filter]
    exact List.filter_congr fun x _ ↦ by rw [Market.isUntold_eq, Bool.and_comm]
  have hsplit : (m.filter fun _ market ↦ !isSingleDefi c market).size +
      (m.values.filter (isSingleDefi c)).length = m.size := by
    rw [SortedMap.values, List.filter_map, List.length_map, Nat.add_comm]
    exact (List.length_eq_length_filter_add _).symm
  rw [huntold] at hrun
  exact hrun.trans hsplit

/-! ## The map that is left -/

def rekeyed (c : Config) (m : MarketMap) : MarketMap :=
  (rekeying c m).kept.mapValues fun _ market ↦ market.follow (rekeying c m).renames

theorem MarketMap.Keyed.get?_rekeyed (hm : m.Keyed) (h : m.Sits c key x pair) :
    (rekeyed c m).get? pair.text = some ((x.withPair pair).follow (rekeying c m).renames) := by
  rw [rekeyed, SortedMap.get?_mapValues, hm.get?_kept_of_sits h, Option.map_some]

namespace MarketMap.WellKeyed

variable (hm : m.WellKeyed)

include hm

theorem exists_get?_rekeyed (h : m.Sits c key x pair) :
    ∃ y, (rekeyed c m).get? pair.text = some y ∧ y.ticker = { x.ticker with pair } ∧
      List.Forall₂ (ProviderConfig.Follows c m) x.providers y.providers :=
  ⟨_, hm.keyed.get?_rekeyed h, rfl,
    List.forall₂_map_right_iff.2 (List.forall₂_same.2 fun p _ ↦ hm.follows_follow p)⟩

theorem exists_sits_of_get?_rekeyed {k : String} {y : Market}
    (h : (rekeyed c m).get? k = some y) :
    ∃ key x pair, m.Sits c key x pair ∧ k = pair.text ∧ y.ticker = { x.ticker with pair } := by
  rw [rekeyed, SortedMap.get?_mapValues, Option.map_eq_some_iff] at h
  obtain ⟨z, hz, rfl⟩ := h
  obtain ⟨key, x, pair, hsits, htext, rfl⟩ := hm.exists_sits_of_get?_kept hz
  exact ⟨key, x, pair, hsits, htext, rfl⟩

end MarketMap.WellKeyed

/-! ## References to markets that are left -/

/-- Re-keying overwrites no market: what it drops is recorded or has no pair told, and no two
markets get the same place.  A market that is not one of a single on-chain venue keeps its key and
everything but its normalizers.  In the new map every market is as it was, apart from its pair and
from the normalizers of its providers, and these follow the markets that they name. -/
theorem rekeyDefiMarkets_follows (c : Config) (m : MarketMap) (hm : m.WellKeyed) :
    ∃ out exclusions, rekeyDefiMarkets c m = .ok (out, exclusions) ∧
      out.size + exclusions.count + (m.values.filter (Market.isUntold c)).length = m.size ∧
      (∀ key x, m.get? key = some x → isSingleDefi c x = false → ∃ y, out.get? key = some y ∧
        y.ticker = x.ticker ∧ List.Forall₂ (ProviderConfig.Follows c m) x.providers y.providers) ∧
      (∀ key x pair, m.Sits c key x pair → ∃ y, out.get? pair.text = some y ∧
        y.ticker = { x.ticker with pair } ∧
        List.Forall₂ (ProviderConfig.Follows c m) x.providers y.providers) ∧
      (∀ key' y, out.get? key' = some y → ∃ key x pair, m.Sits c key x pair ∧ key' = pair.text) ∧
      (∀ key key' x x' pair pair', m.Sits c key x pair → m.Sits c key' x' pair' →
        pair.text = pair'.text → key = key') := by
  refine ⟨rekeyed c m, _, rfl, ?_, fun key x hx hkept ↦ ?_,
    fun key x pair hsits ↦ hm.exists_get?_rekeyed hsits, fun key' y hy ↦ ?_,
    fun key key' x x' pair pair' h h' htext ↦ (hm.sits_injective h h' htext).1⟩
  · rw [SortedMap.size, rekeyed, SortedMap.mapValues, List.length_map]
    exact size_rekeying c m
  · obtain ⟨rfl, -⟩ := hm key x hx
    exact hm.exists_get?_rekeyed (.kept hx hkept)
  · obtain ⟨key, x, pair, hsits, htext, -⟩ := hm.exists_sits_of_get?_rekeyed hy
    exact ⟨key, x, pair, hsits, htext⟩

/-- A market in `USD` of one venue. -/
def venueMarket (base venue offChainTicker : String)
    (normalizeBy : Option CurrencyPair) : Market where
  ticker := { Ticker.ofPair ⟨base, "USD"⟩ 1 with decimals := 8 }
  providers := [{ ProviderConfig.ofVenue venue offChainTicker with normalizeBy }]

/-- `A` moves to `B`, which moves to `C`; `P` and `Q` change places; `F` finds the place of `B`
taken; and the venue of `G` tells no pair. -/
def rotatedMap : MarketMap :=
  .ofMarkets [venueMarket "A" "raydium" "b/usd" none, venueMarket "B" "raydium" "c/usd" none,
    venueMarket "D" "kraken" "D-A" (some ⟨"A", "USD"⟩),
    venueMarket "E" "kraken" "E-P" (some ⟨"P", "USD"⟩),
    venueMarket "F" "raydium" "b/usd" none, venueMarket "G" "raydium" "gold" none,
    venueMarket "P" "raydium" "q/usd" (some ⟨"B", "USD"⟩), venueMarket "Q" "raydium" "p/usd" none]

/-- Markets that change places are followed all at once. -/
theorem rekeyDefiMarkets_follows_rotated :
    rotatedMap.WellKeyed ∧ ∃ out exclusions,
      rekeyDefiMarkets .onChain rotatedMap = .ok (out, exclusions) ∧
      out.values.map (fun y ↦ (y.tickerText, y.providers.map (·.normalizeBy))) =
        [("B/USD", [none]), ("C/USD", [none]), ("D/USD", [some ⟨"B", "USD"⟩]),
          ("E/USD", [some ⟨"Q", "USD"⟩]), ("P/USD", [none]), ("Q/USD", [some ⟨"C", "USD"⟩])] ∧
      out.size + exclusions.count + (rotatedMap.values.filter (Market.isUntold .onChain)).length =
        rotatedMap.size := by
  have hkeyed : rotatedMap.WellKeyed := .of_validate (by decide +kernel)
  obtain ⟨out, exclusions, hrun, hsize, -⟩ := rekeyDefiMarkets_follows .onChain rotatedMap hkeyed
  have hout : (rekeyDefiMarkets .onChain rotatedMap).map (fun out ↦
      out.1.values.map fun y ↦ (y.tickerText, y.providers.map (·.normalizeBy))) =
        .ok [("B/USD", [none]), ("C/USD", [none]), ("D/USD", [some ⟨"B", "USD"⟩]),
          ("E/USD", [some ⟨"Q", "USD"⟩]), ("P/USD", [none]), ("Q/USD", [some ⟨"C", "USD"⟩])] := by
    decide +kernel
  rw [hrun] at hout
  exact ⟨hkeyed, out, exclusions, hrun, Except.ok.inj hout, hsize⟩

/-! ## References to markets that are dropped -/

/-- What has become of a provider that was normalized by the market `n`, which is dropped: it names
that market still.  Either there is no market of this name any more, and the check of the map finds
that, or another market of one on-chain venue has moved to the name. -/
structure ProviderConfig.Strays (c : Config) (m out : MarketMap) (key : String) (y : Market)
    (q : ProviderConfig) (n : CurrencyPair) : Prop where
  eq : q.normalizeBy = some n
  /-- A name without a market is found. -/
  dangling : out.get? n.text = none → out.checkReference key y q =
    .error (.danglingNormalizeBy key q.name n.text) ∧ out.validate ≠ .ok ()
  /-- A market of the name has moved there. -/
  redirected : ∀ w, out.get? n.text = some w → ∃ key₁ x₁, key₁ ≠ n.text ∧
    m.get? key₁ = some x₁ ∧ x₁.MovesTo c n ∧ m.Sits c key₁ x₁ n ∧
    w.ticker = { x₁.ticker with pair := n }

/-- A map with a provider whose normalizer has no market is refused. -/
theorem MarketMap.validate_ne_ok_of_dangling {y : Market} {q : ProviderConfig} {n : CurrencyPair}
    (hy : m.get? key = some y) (hq : q ∈ y.providers) (hn : q.normalizeBy = some n)
    (h : m.get? n.text = none) :
    m.checkReference key y q = .error (.danglingNormalizeBy key q.name n.text) ∧
      m.validate ≠ .ok () := by
  refine ⟨?_, fun hvalid ↦ ?_⟩
  · unfold checkReference
    simp only [hn, h]
  · obtain ⟨normalizer, hnormalizer, -⟩ := (validate_eq_ok_iff.1 hvalid).2 key y hy n ⟨q, hq, hn⟩
    rw [h] at hnormalizer
    cases hnormalizer

/-- A market under the pair of one that is dropped has moved there. -/
theorem MarketMap.WellKeyed.movesTo_of_get?_rekeyed (hm : m.WellKeyed) {n : CurrencyPair}
    {z w : Market} (hz : m.get? n.text = some z) (hdropped : ∀ pair, ¬m.Sits c n.text z pair)
    (hw : (rekeyed c m).get? n.text = some w) :
    ∃ key₁ x₁, key₁ ≠ n.text ∧ m.get? key₁ = some x₁ ∧ x₁.MovesTo c n ∧ m.Sits c key₁ x₁ n ∧
      w.ticker = { x₁.ticker with pair := n } := by
  obtain ⟨key₁, x₁, pair, hsits, htext, hticker⟩ := hm.exists_sits_of_get?_rekeyed hw
  obtain rfl := hm.pair_eq hz
  obtain rfl : pair = z.ticker.pair := ((hm _ z hz).2.eq_of_text htext.symm)
  have hne : key₁ ≠ z.ticker.pair.text := by
    rintro rfl
    obtain rfl := Option.some.inj (hsits.get?_eq.symm.trans hz)
    exact hdropped _ hsits
  refine ⟨key₁, x₁, hne, hsits.get?_eq, ?_, hsits, hticker⟩
  generalize hpair : z.ticker.pair = n at hsits
  cases hsits with
  | kept hx _ => exact absurd (hm.keyed.eq_of_pair_eq hx hz hpair.symm).1 hne
  | moved _ hmoves => exact hmoves

/-- A provider that was normalized by a market that is dropped keeps that name.  It has a market in
the new map only if another market of one on-chain venue moves to it, and else the check of the map
finds that it has none. -/
theorem rekeyDefiMarkets_strays (c : Config) (m : MarketMap) (hm : m.WellKeyed) :
    ∃ out exclusions, rekeyDefiMarkets c m = .ok (out, exclusions) ∧
      ∀ key x pair, m.Sits c key x pair → ∃ y, out.get? pair.text = some y ∧
        List.Forall₂ (fun p q ↦ ∀ n z, p.normalizeBy = some n → m.get? n.text = some z →
          (∀ pair', ¬m.Sits c n.text z pair') → q.Strays c m out pair.text y n)
          x.providers y.providers := by
  refine ⟨rekeyed c m, _, rfl, fun key x pair hsits ↦ ?_⟩
  obtain ⟨y, hy, -, hproviders⟩ := hm.exists_get?_rekeyed hsits
  refine ⟨y, hy, List.forall₂_iff_zip.2 ⟨hproviders.length_eq,
    fun {p q} hpq n z hn hz hdropped ↦ ?_⟩⟩
  have hstale := ((List.forall₂_iff_zip.1 hproviders).2 hpq).stale n hn fun z' pair' hsits' ↦ by
    obtain rfl := Option.some.inj (hsits'.get?_eq.symm.trans hz)
    exact hdropped pair' hsits'
  exact ⟨hstale, MarketMap.validate_ne_ok_of_dangling hy (List.of_mem_zip hpq).2 hstale,
    fun w hw ↦ hm.movesTo_of_get?_rekeyed hz hdropped hw⟩

/-- The venue of `A` tells no pair, `B` moves to the pair of `A`, and `C` is normalized by `A`. -/
def strayMap : MarketMap :=
  .ofMarkets [venueMarket "A" "raydium" "gold" none, venueMarket "B" "raydium" "a/usd" none,
    venueMarket "C" "kraken" "C-A" (some ⟨"A", "USD"⟩)]

theorem wellKeyed_strayMap : strayMap.WellKeyed := .of_validate (by decide +kernel)

theorem get?_strayMap_a : strayMap.get? "A/USD" = some (venueMarket "A" "raydium" "gold" none) := by
  decide +kernel

theorem not_sits_strayMap_a (pair : CurrencyPair) :
    ¬strayMap.Sits .onChain "A/USD" (venueMarket "A" "raydium" "gold" none) pair :=
  MarketMap.not_sits_of_isUntold (by decide +kernel)

/-- The reference to `A` finds the market that has moved there. -/
theorem rekeyDefiMarkets_strays_stray :
    strayMap.WellKeyed ∧ ∃ out exclusions y q,
      rekeyDefiMarkets .onChain strayMap = .ok (out, exclusions) ∧ out.get? "C/USD" = some y ∧
        y.providers = [q] ∧ q.Strays .onChain strayMap out "C/USD" y ⟨"A", "USD"⟩ := by
  obtain ⟨out, exclusions, hrun, hstrays⟩ :=
    rekeyDefiMarkets_strays .onChain strayMap wellKeyed_strayMap
  have hsits : strayMap.Sits .onChain "C/USD" (venueMarket "C" "kraken" "C-A" (some ⟨"A", "USD"⟩))
      ⟨"C", "USD"⟩ := .kept (by decide +kernel) (by decide +kernel)
  obtain ⟨y, hy, hproviders⟩ := hstrays _ _ _ hsits
  obtain ⟨q, _, hq, hnil, hlist⟩ := List.forall₂_cons_left_iff.1 hproviders
  rw [List.forall₂_nil_left_iff.1 hnil] at hlist
  exact ⟨wellKeyed_strayMap, out, exclusions, y, q, hrun, hy, hlist,
    hq ⟨"A", "USD"⟩ _ rfl get?_strayMap_a not_sits_strayMap_a⟩

/-- A provider is normalized by a market that is dropped, and priced through another one afterwards,
which the check of the map does not find. -/
theorem exists_redirected_reference :
    strayMap.WellKeyed ∧ ∃ a x y out exclusions, strayMap.get? "A/USD" = some a ∧
      (∀ pair, ¬strayMap.Sits .onChain "A/USD" a pair) ∧
      strayMap.get? "C/USD" = some x ∧ x.providers.map (·.normalizeBy) = [some ⟨"A", "USD"⟩] ∧
      rekeyDefiMarkets .onChain strayMap = .ok (out, exclusions) ∧ out.get? "C/USD" = some y ∧
      y.providers.map (·.normalizeBy) = [some ⟨"A", "USD"⟩] ∧ out.contains "A/USD" = true ∧
      out.validate = .ok () := by
  have hout : ((rekeyed .onChain strayMap).get? "C/USD").map
      (fun y ↦ y.providers.map (·.normalizeBy)) = some [some ⟨"A", "USD"⟩] := by decide +kernel
  obtain ⟨y, hy, hnormalizers⟩ := Option.map_eq_some_iff.1 hout
  exact ⟨wellKeyed_strayMap, _, venueMarket "C" "kraken" "C-A" (some ⟨"A", "USD"⟩), y, _, _,
    get?_strayMap_a, not_sits_strayMap_a, by decide +kernel, rfl, rfl, hy, hnormalizers,
    by decide +kernel, by decide +kernel⟩

end OracleMarkets
