import OracleMarkets.Proofs.CurrencyPair
import OracleMarkets.Proofs.Market
import OracleMarkets.Proofs.Reading
import OracleMarkets.Proofs.Rearrangement

/-!
# Market maps are read back

A market map is written field by field, and it reads back as itself if every pair in it is normal:
whatever reads a pair trims its symbols, puts them in upper case and checks them.  The metadata and
the names of venues may be any texts, and so may the keys.  What is written may be rearranged before
it is read, so the map is also read back from its text.
-/

namespace OracleMarkets

open Fields (bind_required bind_withDefault bind_missing)

variable (σ : Rearrangement)

/-! ## Pairs -/

namespace CurrencyPair

/-- A normal pair is read back from its symbols, whatever other fields there are. -/
theorem ofEntries?_eq_some {p : CurrencyPair} (hp : p.Normal) {entries : List (Key × Value)}
    {fs : Fields} (hfs : Fields.ofEntries? ["base", "quote"] entries = some fs)
    (hsymbols : p.members.Forall fun f ↦ fs.get? f.1 = some (σ f.2))
    (hreadable : Value.areFieldsReadable entries = true) : ofEntries? entries = some p := by
  have hvalid : (p.isValid && Value.areFieldsReadable entries) = true := by
    rw [isValid_iff.2 hp.valid, hreadable]
    rfl
  obtain ⟨h₁, h₂⟩ := hsymbols
  rw [ofEntries?, hfs]
  refine (bind_required h₁ (σ.text?_value _) _).trans
    ((bind_required h₂ (σ.text?_value _) _).trans ?_)
  rw [ofSymbols_of_normal hp.base hp.quote]
  exact if_pos hvalid

theorem decode?_encode {p : CurrencyPair} (hp : p.Normal) : decode? (σ p.encode) = some p := by
  have hnodup : (p.members.map Prod.fst).Nodup := by
    show ["base", "quote"].Nodup
    decide
  obtain ⟨entries, hentries, hperm⟩ := σ.object p.members hnodup
  obtain ⟨fs, hfs, hsymbols, -⟩ := σ.exists_known ["base", "quote"] p.members hperm hnodup rfl
  rw [encode, hentries]
  refine ofEntries?_eq_some σ hp hfs hsymbols (σ.areFieldsReadable_of_perm hperm ?_)
  simp only [members, List.forall_mem_cons, σ.text]
  exact ⟨rfl, rfl, List.forall_mem_nil _⟩

end CurrencyPair

/-! ## Markets -/

namespace Ticker

/-- The fields of a ticker beside those of its pair. -/
def ownMembers (t : Ticker) : Fields :=
  [("decimals", .count t.decimals), ("minProviderCount", .count t.minProviderCount),
    ("enabled", .bool t.enabled), ("metadata", .text t.metadata)]

theorem decode?_encode {t : Ticker} (ht : t.pair.Normal) : decode? (σ t.encode) = some t := by
  have hnodup : ((t.pair.members ++ t.ownMembers).map Prod.fst).Nodup := by
    show ["base", "quote", "decimals", "minProviderCount", "enabled", "metadata"].Nodup
    decide
  obtain ⟨entries, hentries, hperm⟩ := σ.object _ hnodup
  obtain ⟨symbols, hsymbols, hsymbol, -⟩ :=
    σ.exists_known ["base", "quote"] t.pair.members hperm hnodup rfl
  obtain ⟨fs, hfs, ⟨h₁, h₂, h₃, h₄⟩, -⟩ :=
    σ.exists_known ["decimals", "minProviderCount", "enabled", "metadata"] t.ownMembers hperm hnodup
      rfl
  have hreadable : Value.areFieldsReadable entries = true := by
    refine σ.areFieldsReadable_of_perm hperm ?_
    simp only [CurrencyPair.members, ownMembers, List.cons_append, List.nil_append,
      List.forall_mem_cons, σ.text, σ.bool, Value.count, Value.int, σ.number]
    exact ⟨rfl, rfl, rfl, rfl, rfl, rfl, List.forall_mem_nil _⟩
  have hpair := CurrencyPair.ofEntries?_eq_some σ ht hsymbols hsymbol hreadable
  have hencode : σ t.encode = .record entries := hentries
  rw [hencode, decode?, Value.entries?]
  show ((Fields.ofEntries? _ entries).bind _) = some t
  rw [hfs, Option.bind_some, bind_withDefault h₁ (σ.count?_value _),
    bind_required h₂ (σ.count?_value _), bind_withDefault h₃ (σ.bool?_value _),
    bind_withDefault h₄ (σ.text?_value _), hpair]
  rfl

end Ticker

theorem ProviderConfig.decode?_encode {p : ProviderConfig}
    (hp : ∀ n, p.normalizeBy = some n → n.Normal) : decode? (σ p.encode) = some p := by
  obtain ⟨name, ticker, n, invert, metadata⟩ := p
  cases n with
  | none =>
    refine σ.bind_fields? ["name", "offChainTicker", "invert", "metadata"] rfl
      (by decide) (by decide) fun fs ⟨h₁, h₂, h₃, h₄⟩ hnone ↦ ?_
    rw [bind_required h₁ (σ.text?_value _), bind_required h₂ (σ.text?_value _),
      bind_missing (hnone _ (by decide)), bind_withDefault h₃ (σ.bool?_value _),
      bind_withDefault h₄ (σ.text?_value _)]
    rfl
  | some n =>
    have hn := Value.option?_eq_some (CurrencyPair.decode?_encode σ (hp n rfl)) rfl
    refine σ.bind_fields? fieldNames rfl (by decide) (by decide) fun fs ⟨h₁, h₂, h₃, h₄, h₅⟩ _ ↦ ?_
    rw [bind_required h₁ (σ.text?_value _), bind_required h₂ (σ.text?_value _),
      bind_withDefault h₃ hn, bind_withDefault h₄ (σ.bool?_value _),
      bind_withDefault h₅ (σ.text?_value _)]
    rfl

/-- The pair of the market and those by which its providers are normalized are normal. -/
structure Market.HasNormalPairs (m : Market) : Prop where
  pair : m.ticker.pair.Normal
  normalizer : ∀ n, m.NormalizesBy n → n.Normal

theorem Market.decode?_encode {m : Market} (hm : m.HasNormalPairs) :
    decode? (σ m.encode) = some m := by
  have hproviders : Value.list? ProviderConfig.decode?
      (σ (.list (m.providers.map ProviderConfig.encode))) = some m.providers :=
    σ.list?_value fun p hp ↦ ProviderConfig.decode?_encode σ fun n hn ↦ hm.normalizer n ⟨p, hp, hn⟩
  refine σ.bind_fields? ["ticker", "providers"] rfl (by decide) (by decide) fun fs ⟨h₁, h₂⟩ _ ↦ ?_
  rw [bind_required h₁ (Ticker.decode?_encode σ hm.pair), bind_withDefault h₂ hproviders]
  rfl

/-- A market map is read back, also if its form is rearranged. -/
theorem MarketMap.decode?_encode {m : MarketMap}
    (hm : m.Forall fun _ market ↦ market.HasNormalPairs) : decode? (σ m.encode) = some m :=
  σ.map?_value fun key market hmarket ↦ Market.decode?_encode σ (hm key market hmarket)

/-! ## Normal pairs -/

section

variable {H : Value → Prop}

/-- Every pair that is read is in normal form. -/
theorem CurrencyPair.yields_normal : Yields H decode? Normal := fun _ _ _ h ↦ normal_of_decode? h

theorem Ticker.yields_normal : Yields H decode? fun t ↦ t.pair.Normal := by
  intro v t _ h
  simp only [decode?, Option.bind_eq_bind, Option.bind_eq_some_iff] at h
  obtain ⟨_, -, _, -, _, -, _, -, _, -, _, -, pair, hpair, h⟩ := h
  cases h
  exact CurrencyPair.normal_of_ofEntries? hpair

variable (hH : Hereditary H)

include hH

theorem ProviderConfig.yields_normal :
    Yields H decode? fun p ↦ ∀ n, p.normalizeBy = some n → n.Normal := by
  intro v p hv h
  simp only [decode?, Option.bind_eq_bind, Option.bind_eq_some_iff] at h
  obtain ⟨fs, hfs, _, -, _, -, n, hn, _, -, _, -, h⟩ := h
  cases h
  exact CurrencyPair.yields_normal.option.withDefault (hH.of_mem_fields hv hfs) hn nofun

theorem Market.yields_hasNormalPairs : Yields H decode? HasNormalPairs := by
  intro v m hv h
  simp only [decode?, Option.bind_eq_bind, Option.bind_eq_some_iff] at h
  obtain ⟨fs, hfs, ticker, hticker, providers, hproviders, h⟩ := h
  cases h
  have hfs := hH.of_mem_fields hv hfs
  refine ⟨Ticker.yields_normal.required hfs hticker, ?_⟩
  rintro n ⟨p, hp, hn⟩
  exact ((ProviderConfig.yields_normal hH).list hH).withDefault hfs hproviders nofun p hp n hn

theorem MarketMap.yields_hasNormalPairs :
    Yields H decode? fun m ↦ m.Forall fun _ market ↦ market.HasNormalPairs :=
  (Market.yields_hasNormalPairs hH).map hH

end

/-! ## Texts -/

namespace Value

theorem writable_count {d : Nat} (n : UInt64) : (count n).Writable d := by
  refine .int ?_
  have := n.toNat_lt
  omega

theorem writable_object {d : Nat} {fields : List (String × Value)}
    (h : ∀ f ∈ fields, f.2.Writable d) : (object fields).Writable (d + 1) := by
  refine .record fun f hf ↦ ?_
  obtain ⟨e, he, rfl⟩ := List.mem_map.1 hf
  exact h e he

end Value

theorem CurrencyPair.writable_encode {d : Nat} (p : CurrencyPair) : p.encode.Writable (d + 1) := by
  refine Value.writable_object ?_
  simp only [members, List.forall_mem_cons]
  exact ⟨.text _, .text _, List.forall_mem_nil _⟩

theorem Ticker.writable_encode {d : Nat} (t : Ticker) : t.encode.Writable (d + 1) := by
  refine Value.writable_object ?_
  simp only [CurrencyPair.members, List.cons_append, List.nil_append, List.forall_mem_cons]
  exact ⟨.text _, .text _, Value.writable_count _, Value.writable_count _, .bool _, .text _,
    List.forall_mem_nil _⟩

theorem ProviderConfig.writable_encode {d : Nat} (p : ProviderConfig) :
    p.encode.Writable (d + 2) := by
  refine Value.writable_object ?_
  obtain ⟨name, ticker, n, invert, metadata⟩ := p
  cases n with
  | none =>
    simp only [Option.map_none, Option.toList_none, List.append_nil, List.cons_append,
      List.nil_append, List.forall_mem_cons]
    exact ⟨.text _, .text _, .bool _, .text _, List.forall_mem_nil _⟩
  | some n =>
    simp only [Option.map_some, Option.toList_some, List.cons_append, List.nil_append,
      List.forall_mem_cons]
    exact ⟨.text _, .text _, n.writable_encode, .bool _, .text _, List.forall_mem_nil _⟩

theorem Market.writable_encode {d : Nat} (m : Market) : m.encode.Writable (d + 4) := by
  refine Value.writable_object ?_
  simp only [List.forall_mem_cons]
  refine ⟨m.ticker.writable_encode, .list ?_, List.forall_mem_nil _⟩
  intro v hv
  obtain ⟨p, -, rfl⟩ := List.mem_map.1 hv
  exact p.writable_encode

theorem MarketMap.writable_encode {d : Nat} (m : MarketMap) : m.encode.Writable (d + 5) := by
  refine Value.writable_object ?_
  intro f hf
  obtain ⟨e, -, rfl⟩ := List.mem_map.1 hf
  exact e.2.writable_encode

/-- The text of a map, with spaces after it, is read back as the map. -/
theorem MarketMap.decode?_read? {m : MarketMap}
    (hm : m.Forall fun _ market ↦ market.HasNormalPairs) {t : String} (ht : Json.Blank t.toList) :
    (Json.read? (Json.pretty m.encode ++ t)).bind decode? = some m := by
  rw [Json.read?_pretty m.writable_encode ht, Option.bind_some]
  exact decode?_encode .reread hm

end OracleMarkets
