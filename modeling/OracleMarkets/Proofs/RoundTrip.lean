import OracleMarkets.Proofs.Artifact
import OracleMarkets.Proofs.Timestamp

/-!
# Documents lose nothing

Configurations, feeds, rows of venues, logs, differences and envelopes are read back as what they
are once they are written, as market maps are.  The forms are not symmetric: pairs are put in normal
form when they are read, a number that is not finite is written as nothing, empty parts are left
out, and what is left out of a configuration is not empty by default.  So each type has the
condition under which it is read back (`Feed.Regular` and the like), a lemma that it is, in any
rearrangement of what is written (`Feed.decode?_encode`), and a lemma that whatever is read of
finite numbers meets the condition (`Feed.yields_regular`).  The main result is `lossless_forms`.
-/

namespace OracleMarkets

open Fields (bind_required bind_withDefault bind_missing)

variable (σ : Rearrangement)

/-! ## Configurations -/

/-- The floors of a venue are finite. -/
structure ProviderSettings.HasFiniteFloors (s : ProviderSettings) : Prop where
  minUsdVolume : s.minUsdVolume.isFinite = true
  minProviderLiquidity : s.minProviderLiquidity.isFinite = true

/-- The floors of a quote are finite. -/
structure QuoteSettings.HasFiniteFloors (s : QuoteSettings) : Prop where
  minProviderVolume : s.minProviderVolume.isFinite = true
  minProviderLiquidity : s.minProviderLiquidity.isFinite = true

/-- The floors of all venues and quotes are finite. -/
structure Config.HasFiniteFloors (c : Config) : Prop where
  providers : ∀ name s, c.providers.get? name = some s → s.HasFiniteFloors
  quotes : ∀ symbol s, c.quotes.get? symbol = some s → s.HasFiniteFloors

/-- The pairs of a configuration are normal, and its floors are finite. -/
structure Config.Regular (c : Config) : Prop where
  pairs : c.HasNormalPairs
  floors : c.HasFiniteFloors

namespace ProviderSettings

theorem decode?_encode {s : ProviderSettings} (h : s.HasFiniteFloors) :
    decode? (σ s.encode) = some s := by
  refine σ.bind_fields? fieldNames rfl (by decide) (by decide)
    fun fs ⟨h₁, h₂, h₃, h₄, h₅, h₆, h₇, h₈⟩ _ ↦ ?_
  rw [bind_withDefault h₁ (σ.bool?_value _), bind_withDefault h₂ (σ.bool?_value _),
    bind_withDefault h₃ (σ.count?_value _), bind_withDefault h₄ (σ.bool?_value _),
    bind_withDefault h₅ (σ.bool?_value _), bind_withDefault h₆ (σ.bool?_value _),
    bind_withDefault h₇ (σ.amount?_value h.minUsdVolume),
    bind_withDefault h₈ (σ.amount?_value h.minProviderLiquidity)]
  rfl

theorem yields_finiteFloors : Yields Value.IsFinite decode? HasFiniteFloors := by
  intro v s hv h
  unfold decode? at h
  simp only [↓bind_eq_some] at h
  obtain ⟨fs, hfs, _, -, _, -, _, -, _, -, _, -, _, -, x, hx, y, hy, h⟩ := h
  cases h
  have hfs := Value.hereditary_isFinite.of_mem_fields hv hfs
  exact ⟨yields_amount.withDefault hfs hx isFinite_zero,
    yields_amount.withDefault hfs hy isFinite_zero⟩

end ProviderSettings

namespace QuoteSettings

theorem decode?_encode {s : QuoteSettings} (h : s.HasFiniteFloors)
    (hn : ∀ n, s.normalizeBy = some n → n.Normal) : decode? (σ s.encode) = some s := by
  obtain ⟨x, y, n⟩ := s
  have hx := σ.amount?_value h.minProviderVolume
  have hy := σ.amount?_value h.minProviderLiquidity
  cases n with
  | none =>
    refine σ.bind_fields? ["min_provider_volume", "min_provider_liquidity"] rfl (by decide)
      (by decide) fun fs ⟨h₁, h₂⟩ hnone ↦ ?_
    rw [bind_withDefault h₁ hx, bind_withDefault h₂ hy, bind_missing (hnone _ (by decide))]
    rfl
  | some n =>
    have hn := Value.option?_eq_some (CurrencyPair.decode?_encode σ (hn n rfl)) rfl
    refine σ.bind_fields? fieldNames rfl (by decide) (by decide) fun fs ⟨h₁, h₂, h₃⟩ _ ↦ ?_
    rw [bind_withDefault h₁ hx, bind_withDefault h₂ hy, bind_withDefault h₃ hn]
    rfl

theorem yields_finiteFloors : Yields Value.IsFinite decode? HasFiniteFloors := by
  intro v s hv h
  unfold decode? at h
  simp only [↓bind_eq_some] at h
  obtain ⟨fs, hfs, x, hx, y, hy, _, -, h⟩ := h
  cases h
  have hfs := Value.hereditary_isFinite.of_mem_fields hv hfs
  exact ⟨yields_amount.withDefault hfs hx isFinite_zero,
    yields_amount.withDefault hfs hy isFinite_zero⟩

end QuoteSettings

namespace Config

/-- The standard venues and quotes have no floors. -/
theorem hasFiniteFloors_standard : standard.HasFiniteFloors := by
  constructor
  · intro name s h
    have hmem := SortedMap.mem_of_mem_ofList (SortedMap.get?_eq_some_iff.1 h)
    simp only [List.mem_append, List.mem_map, Prod.mk.injEq] at hmem
    rcases hmem with ⟨_, -, -, rfl⟩ | ⟨_, -, -, rfl⟩
    · exact ⟨isFinite_zero, isFinite_zero⟩
    · exact ⟨isFinite_zero, isFinite_zero⟩
  · intro symbol s h
    have hmem := SortedMap.mem_of_mem_ofList (SortedMap.get?_eq_some_iff.1 h)
    simp only [List.mem_cons, Prod.mk.injEq, List.not_mem_nil, or_false] at hmem
    rcases hmem with ⟨-, rfl⟩ | ⟨-, rfl⟩ | ⟨-, rfl⟩
    · exact ⟨isFinite_zero, isFinite_zero⟩
    · exact ⟨isFinite_zero, isFinite_zero⟩
    · exact ⟨isFinite_zero, isFinite_zero⟩

/-- A set of pairs is read back if the pairs are normal. -/
theorem decodePairs?_encodePairs {pairs : SortedSet CurrencyPair} (h : ∀ p ∈ pairs.keys, p.Normal) :
    decodePairs? (σ (encodePairs pairs)) = some pairs := by
  have hentries : pairs.keys.map (·, ()) = pairs.toList := by
    rw [SortedMap.keys, List.map_map]
    exact List.map_id _
  rw [decodePairs?, encodePairs, σ.list?_value fun p hp ↦ CurrencyPair.decode?_encode σ (h p hp),
    Option.map_some, SortedSet.ofList, SortedMap.ofList_eq_of_perm (.of_eq hentries)]

theorem decode?_encode {c : Config} (h : c.Regular) : decode? (σ c.encode) = some c := by
  have hproviders := σ.map?_value fun name s hs ↦
    ProviderSettings.decode?_encode σ (h.floors.providers name s hs)
  have hquotes := σ.map?_value fun symbol s hs ↦
    QuoteSettings.decode?_encode σ (h.floors.quotes symbol s hs) (h.pairs.quotes symbol s hs)
  have hexcluded := decodePairs?_encodePairs σ h.pairs.excludedPairs
  have hallowed := decodePairs?_encodePairs σ h.pairs.allowedPairs
  have hoverrides := MarketMap.decode?_encode σ h.pairs.overrides
  have hdisabled := σ.map?_value (m := c.disabledProviders) fun _ l _ ↦
    σ.list?_value (l := l) fun name _ ↦ σ.text?_value name
  have haliases := σ.countMap?_value (m := c.aliases) fun _ id _ ↦ σ.count?_value id
  refine σ.bind_fields? fieldNames rfl (by decide) (by decide)
    fun fs ⟨h₁, h₂, h₃, h₄, h₅, h₆, h₇, h₈, h₉, h₁₀, h₁₁⟩ _ ↦ ?_
  rw [bind_withDefault h₁ hproviders, bind_withDefault h₂ hquotes,
    bind_withDefault h₃ (σ.count?_value _), bind_withDefault h₄ (σ.count?_value _),
    bind_withDefault h₅ (σ.count?_value _), bind_withDefault h₆ hexcluded,
    bind_withDefault h₇ hallowed, bind_withDefault h₈ hdisabled, bind_withDefault h₉ hoverrides,
    bind_withDefault h₁₀ (σ.bool?_value _), bind_withDefault h₁₁ haliases]
  rfl

theorem yields_regular : Yields Value.IsFinite decode? Regular := by
  intro v c hv h
  have hpairs := IsDecoded.hasNormalPairs ⟨v, h⟩
  unfold decode? at h
  simp only [↓bind_eq_some] at h
  obtain ⟨fs, hfs, providers, hproviders, quotes, hquotes, _, -, _, -, _, -, _, -, _, -, _, -,
    _, -, _, -, _, -, h⟩ := h
  cases h
  have hH := Value.hereditary_isFinite
  have hfs := hH.of_mem_fields hv hfs
  exact ⟨hpairs,
    (ProviderSettings.yields_finiteFloors.map hH).withDefault hfs hproviders
      hasFiniteFloors_standard.providers,
    (QuoteSettings.yields_finiteFloors.map hH).withDefault hfs hquotes
      hasFiniteFloors_standard.quotes⟩

theorem isFinite_of_checkThreshold {owner field : String} {x : Float}
    (h : checkThreshold owner field x = .ok ()) : x.isFinite = true := by
  unfold checkThreshold at h
  split at h
  · next hx => exact hx.1
  · cases h

/-- A configuration that is accepted has finite floors. -/
theorem hasFiniteFloors_of_validate {c : Config} (h : c.validate = .ok ()) : c.HasFiniteFloors := by
  obtain ⟨-, -, -, hproviders, hquotes, -⟩ := validate_eq_ok_iff.1 h
  constructor
  · intro name s hs
    have hcheck := hproviders _ (SortedMap.get?_eq_some_iff.1 hs)
    obtain ⟨hvolume, hliquidity⟩ := check_bind_eq_ok.1 hcheck
    exact ⟨isFinite_of_checkThreshold hvolume, isFinite_of_checkThreshold hliquidity⟩
  · intro symbol s hs
    have hcheck := hquotes _ (SortedMap.get?_eq_some_iff.1 hs)
    obtain ⟨hvolume, hcheck⟩ := check_bind_eq_ok.1 hcheck
    obtain ⟨hliquidity, -⟩ := check_bind_eq_ok.1 hcheck
    exact ⟨isFinite_of_checkThreshold hvolume, isFinite_of_checkThreshold hliquidity⟩

end Config

/-! ## Feeds -/

/-- The pairs of a feed are normal, and its numbers are finite. -/
structure Feed.Regular (f : Feed) : Prop where
  pair : f.ticker.pair.Normal
  normalizer : ∀ n, f.provider.normalizeBy = some n → n.Normal
  quoteVolume : f.quoteVolume.isFinite = true
  usdVolume : f.usdVolume.isFinite = true
  referencePrice : f.referencePrice.isFinite = true
  negativeDepth : f.liquidity.negativeDepth.isFinite = true
  positiveDepth : f.liquidity.positiveDepth.isFinite = true

theorem CmcInfo.decode?_encode (c : CmcInfo) : decode? (σ c.encode) = some c := by
  refine σ.bind_fields? ["base_id", "quote_id", "base_rank", "quote_rank"] rfl
    (by decide) (by decide) fun fs ⟨h₁, h₂, h₃, h₄⟩ _ ↦ ?_
  rw [bind_required h₁ (σ.count?_value _), bind_required h₂ (σ.count?_value _),
    bind_required h₃ (σ.count?_value _), bind_required h₄ (σ.count?_value _)]
  rfl

theorem LiquidityInfo.decode?_encode {l : LiquidityInfo} (hn : l.negativeDepth.isFinite = true)
    (hp : l.positiveDepth.isFinite = true) : decode? (σ l.encode) = some l := by
  refine σ.bind_fields? ["negative_depth_two", "positive_depth_two"] rfl (by decide) (by decide)
    fun fs ⟨h₁, h₂⟩ _ ↦ ?_
  rw [bind_required h₁ (σ.amount?_value hn), bind_required h₂ (σ.amount?_value hp)]
  rfl

theorem LiquidityInfo.yields_finite : Yields Value.IsFinite decode? fun l ↦
    l.negativeDepth.isFinite = true ∧ l.positiveDepth.isFinite = true := by
  intro v l hv h
  unfold decode? at h
  simp only [↓bind_eq_some] at h
  obtain ⟨fs, hfs, x, hx, y, hy, h⟩ := h
  cases h
  have hfs := Value.hereditary_isFinite.of_mem_fields hv hfs
  exact ⟨yields_amount.required hfs hx, yields_amount.required hfs hy⟩

namespace Feed

theorem decode?_encode {f : Feed} (h : f.Regular) : decode? (σ f.encode) = some f := by
  refine σ.bind_fields? fieldNames rfl (by decide) (by decide)
    fun fs ⟨h₁, h₂, h₃, h₄, h₅, h₆, h₇⟩ _ ↦ ?_
  rw [bind_required h₁ (Ticker.decode?_encode σ h.pair),
    bind_required h₂ (ProviderConfig.decode?_encode σ h.normalizer),
    bind_required h₃ (σ.amount?_value h.quoteVolume),
    bind_required h₄ (σ.amount?_value h.usdVolume),
    bind_required h₅ (σ.amount?_value h.referencePrice),
    bind_required h₆ (LiquidityInfo.decode?_encode σ h.negativeDepth h.positiveDepth),
    bind_required h₇ (f.cmc.decode?_encode σ)]
  rfl

theorem yields_regular : Yields Value.IsFinite decode? Regular := by
  intro v f hv h
  unfold decode? at h
  simp only [↓bind_eq_some] at h
  obtain ⟨fs, hfs, ticker, hticker, provider, hprovider, x, hx, y, hy, z, hz, liquidity, hliquidity,
    _, -, h⟩ := h
  cases h
  have hH := Value.hereditary_isFinite
  have hfs := hH.of_mem_fields hv hfs
  obtain ⟨hnegative, hpositive⟩ := LiquidityInfo.yields_finite.required hfs hliquidity
  exact ⟨Ticker.yields_normal.required hfs hticker,
    (ProviderConfig.yields_normal hH).required hfs hprovider, yields_amount.required hfs hx,
    yields_amount.required hfs hy, yields_amount.required hfs hz, hnegative, hpositive⟩

end Feed

/-! ## Rows -/

/-- The numbers of a row are finite. -/
structure VenueRow.Regular (r : VenueRow) : Prop where
  quoteVolume : r.quoteVolume.isFinite = true
  usdVolume : r.usdVolume.isFinite = true
  referencePrice : r.referencePrice.isFinite = true
  negativeDepth : r.negativeDepth.isFinite = true
  positiveDepth : r.positiveDepth.isFinite = true

namespace VenueRow

theorem decode?_encode {r : VenueRow} (h : r.Regular) : decode? (σ r.encode) = some r := by
  refine σ.bind_fields? fieldNames rfl (by decide) (by decide)
    fun fs ⟨h₁, h₂, h₃, h₄, h₅, h₆, h₇, h₈, h₉, h₁₀, h₁₁, h₁₂, h₁₃, h₁₄⟩ _ ↦ ?_
  rw [bind_required h₁ (σ.text?_value _), bind_required h₂ (σ.text?_value _),
    bind_required h₃ (σ.text?_value _), bind_required h₄ (σ.text?_value _),
    bind_withDefault h₅ (σ.amount?_value h.quoteVolume),
    bind_withDefault h₆ (σ.amount?_value h.usdVolume), bind_withDefault h₇ (σ.text?_value _),
    bind_withDefault h₈ (σ.amount?_value h.referencePrice),
    bind_withDefault h₉ (σ.amount?_value h.negativeDepth),
    bind_withDefault h₁₀ (σ.amount?_value h.positiveDepth), bind_withDefault h₁₁ (σ.count?_value _),
    bind_withDefault h₁₂ (σ.count?_value _), bind_withDefault h₁₃ (σ.count?_value _),
    bind_withDefault h₁₄ (σ.count?_value _)]
  rfl

theorem yields_regular : Yields Value.IsFinite decode? Regular := by
  intro v r hv h
  unfold decode? at h
  simp only [↓bind_eq_some] at h
  obtain ⟨fs, hfs, _, -, _, -, _, -, _, -, x₁, h₁, x₂, h₂, _, -, x₃, h₃, x₄, h₄, x₅, h₅, _, -,
    _, -, _, -, _, -, h⟩ := h
  cases h
  have hfs := Value.hereditary_isFinite.of_mem_fields hv hfs
  have hamount {name : String} {x : Float} (hx : fs.withDefault name 0.0 Value.amount? = some x) :
      x.isFinite = true := yields_amount.withDefault hfs hx isFinite_zero
  exact ⟨hamount h₁, hamount h₂, hamount h₃, hamount h₄, hamount h₅⟩

end VenueRow

/-! ## Logs -/

/-- The snapshots of all drops have the property. -/
def DropLog.Forall {α : Type} (P : α → Prop) (log : DropLog α) : Prop :=
  ∀ ticker drops, log.get? ticker = some drops → ∀ d ∈ drops, P d.snapshot

namespace DropLog

variable {α : Type} {write : α → Value} {read : Value → Option α} {P : α → Prop}

theorem decode?_encode {log : DropLog α} (hread : ∀ a, P a → read (σ (write a)) = some a)
    (h : log.Forall P) : decode? read (σ (log.encode write)) = some log := by
  refine σ.map?_value fun ticker drops hdrops ↦ σ.list?_value fun d hd ↦ ?_
  refine σ.bind_fields? ["reason", "provider", "snapshot"] rfl (by decide) (by decide)
    fun fs ⟨h₁, h₂, h₃⟩ _ ↦ ?_
  rw [bind_required h₁ (σ.text?_value _), bind_required h₂ (σ.text?_value _),
    bind_required h₃ (hread _ (h ticker drops hdrops d hd))]
  rfl

theorem yields_forall {H : Value → Prop} (hH : Hereditary H) (h : Yields H read P) :
    Yields H (decode? read) (Forall P) := by
  have hdrop : Yields H (decodeDrop? read) fun d ↦ P d.snapshot := by
    intro v d hv hd
    unfold decodeDrop? at hd
    simp only [↓bind_eq_some] at hd
    obtain ⟨fs, hfs, _, -, _, -, a, ha, hd⟩ := hd
    cases hd
    exact h.required (hH.of_mem_fields hv hfs) ha
  exact (hdrop.list hH).map hH

end DropLog

/-! ## Differences -/

/-- The pairs of the markets that a difference writes are normal. -/
structure MarketDiff.HasNormalPairs (d : MarketDiff) : Prop where
  created : ∀ m ∈ d.created, m.HasNormalPairs
  updated : ∀ m ∈ d.updated, m.HasNormalPairs

namespace MarketDiff

theorem decode?_encode {d : MarketDiff} (h : d.HasNormalPairs) : decode? (σ d.encode) = some d := by
  have hcreated := σ.list?_value fun m hm ↦ Market.decode?_encode σ (h.created m hm)
  have hupdated := σ.list?_value fun m hm ↦ Market.decode?_encode σ (h.updated m hm)
  have hkeys (l : List String) := σ.list?_value (l := l) fun key _ ↦ σ.text?_value key
  refine σ.bind_fields? ["created", "updated", "unchanged", "retained"] rfl (by decide) (by decide)
    fun fs ⟨h₁, h₂, h₃, h₄⟩ _ ↦ ?_
  rw [bind_required h₁ hcreated, bind_required h₂ hupdated, bind_required h₃ (hkeys _),
    bind_required h₄ (hkeys _)]
  rfl

theorem yields_hasNormalPairs {H : Value → Prop} (hH : Hereditary H) :
    Yields H decode? HasNormalPairs := by
  intro v d hv h
  unfold decode? at h
  simp only [↓bind_eq_some] at h
  obtain ⟨fs, hfs, created, hcreated, updated, hupdated, _, -, _, -, h⟩ := h
  cases h
  have hfs := hH.of_mem_fields hv hfs
  have hmarkets := (Market.yields_hasNormalPairs hH).list hH
  exact ⟨hmarkets.required hfs hcreated, hmarkets.required hfs hupdated⟩

end MarketDiff

/-! ## Envelopes -/

/-- An instant is written as its text. -/
theorem Timestamp.decode?_rearranged (t : Timestamp) : decode? (σ t.encode) = some t := by
  have htext : σ t.encode = t.encode := σ.text _
  rw [htext, t.decode?_encode]

theorem EnvelopeHeader.decode?_encode (m : EnvelopeHeader) : decode? (σ m.encode) = some m := by
  obtain ⟨requestId, schemaVersion, generatedAt, command, latencyMs, warnings⟩ := m
  have htime := generatedAt.decode?_rearranged σ
  cases warnings with
  | nil =>
    refine σ.bind_fields? ["request_id", "schema_version", "generated_at", "command",
      "latency_ms"] rfl (by decide) (by decide) fun fs ⟨h₁, h₂, h₃, h₄, h₅⟩ hnone ↦ ?_
    rw [bind_required h₁ (σ.text?_value _), bind_required h₂ (σ.text?_value _),
      bind_required h₃ htime, bind_required h₄ (σ.text?_value _),
      bind_required h₅ (σ.count?_value _), bind_missing (hnone _ (by decide))]
    rfl
  | cons warning rest =>
    have hwarnings := σ.list?_value (l := warning :: rest) fun w _ ↦ σ.text?_value w
    refine σ.bind_fields? fieldNames rfl (by decide) (by decide)
      fun fs ⟨h₁, h₂, h₃, h₄, h₅, h₆⟩ _ ↦ ?_
    rw [bind_required h₁ (σ.text?_value _), bind_required h₂ (σ.text?_value _),
      bind_required h₃ htime, bind_required h₄ (σ.text?_value _),
      bind_required h₅ (σ.count?_value _), bind_withDefault h₆ hwarnings]
    rfl

theorem EnvelopeError.decode?_encode (e : EnvelopeError) : decode? (σ e.encode) = some e := by
  obtain ⟨code, message, ticker⟩ := e
  cases ticker with
  | none =>
    refine σ.bind_fields? ["code", "message"] rfl (by decide) (by decide) fun fs ⟨h₁, h₂⟩ hnone ↦ ?_
    rw [bind_required h₁ (σ.text?_value _), bind_required h₂ (σ.text?_value _),
      bind_missing (hnone _ (by decide))]
    rfl
  | some ticker =>
    have hticker := Value.option?_eq_some (σ.text?_value ticker) rfl
    refine σ.bind_fields? ["code", "message", "ticker"] rfl (by decide) (by decide)
      fun fs ⟨h₁, h₂, h₃⟩ _ ↦ ?_
    rw [bind_required h₁ (σ.text?_value _), bind_required h₂ (σ.text?_value _),
      bind_withDefault h₃ hticker]
    rfl

namespace Envelope

/-- The names of the fields in the data are in order, as they are in data that is kept as maps. -/
def HasSortedData (e : Envelope) : Prop := e.data.sortKeys = e.data

theorem decode?_encode {e : Envelope} (hσ : ∀ v, (σ v).sortKeys = v.sortKeys)
    (h : e.HasSortedData) : decode? (σ e.encode) = some e := by
  obtain ⟨header, data, errors⟩ := e
  have hdata : some (σ data).sortKeys = some data := congrArg some ((hσ data).trans h)
  have hheader := header.decode?_encode σ
  cases errors with
  | nil =>
    refine σ.bind_fields? ["meta", "data"] rfl (by decide) (by decide) fun fs ⟨h₁, h₂⟩ hnone ↦ ?_
    rw [bind_required h₁ hheader, bind_required h₂ hdata, bind_missing (hnone _ (by decide))]
    rfl
  | cons error rest =>
    have herrors := σ.list?_value (l := error :: rest) fun e _ ↦ e.decode?_encode σ
    refine σ.bind_fields? ["meta", "data", "errors"] rfl (by decide) (by decide)
      fun fs ⟨h₁, h₂, h₃⟩ _ ↦ ?_
    rw [bind_required h₁ hheader, bind_required h₂ hdata, bind_withDefault h₃ herrors]
    rfl

theorem yields_hasSortedData {H : Value → Prop} : Yields H decode? HasSortedData := by
  intro v e _ h
  unfold decode? at h
  simp only [↓bind_eq_some] at h
  obtain ⟨fs, -, _, -, data, hdata, _, -, h⟩ := h
  cases h
  obtain ⟨w, -, hw⟩ := Option.bind_eq_some_iff.1 hdata
  cases hw
  exact w.sortKeys_sortKeys

end Envelope

/-! ## Lossless forms -/

/-- A form of documents loses nothing of what has the property `P`: it is read back once it is
written, and so is whatever is read of a value of finite numbers. -/
structure Lossless {α : Type} (encode : α → Value) (decode? : Value → Option α) (P : α → Prop) :
    Prop where
  decode?_encode : ∀ a, P a → decode? (encode a) = some a
  /-- What is read is read back once it is written again. -/
  decode?_reencode : ∀ v : Value, v.IsFinite → ∀ a, decode? v = some a → decode? (encode a) = some a

/-- A form loses nothing of what it reads if it loses nothing of what has the property that readings
have. -/
theorem Lossless.of_yields {α : Type} {encode : α → Value} {decode? : Value → Option α}
    {P : α → Prop} (h : ∀ a, P a → decode? (encode a) = some a)
    (hyields : Yields Value.IsFinite decode? P) : Lossless encode decode? P where
  decode?_encode := h
  decode?_reencode v hv a ha := h a (hyields v a hv ha)

/-- A configuration that is read and accepted can be read from what is written of it. -/
theorem Config.regular_of_validate {c : Config} (hc : c.IsDecoded) (hv : c.validate = .ok ()) :
    c.Regular :=
  ⟨hc.hasNormalPairs, hasFiniteFloors_of_validate hv⟩

/-- The configuration that is shown is loaded again as what it is. -/
theorem CommandLine.decode?_of_config {engine : Engine} {databasePath : String} {stamp : Stamp}
    {p p' : Process} {file : Option String} {a : Answer}
    (h : Process.exec (config (Process.host engine databasePath stamp) file) p = (.ok a, p')) :
    ∃ c v, (∀ path, file = some path → Config.ofFile path (p.disk.read path) = .ok c) ∧
      (file = none → c = .standard) ∧ a.data.field? "config" = some v ∧
      Config.decode? v = some c ∧ c.validate = .ok () := by
  obtain ⟨source, c, rfl, hfile, hstandard⟩ := exists_shown_of_config h
  have hc : c.IsDecoded ∧ c.validate = .ok () := by
    cases file with
    | some path => exact ⟨isDecoded_of_ofFile (hfile path rfl), validate_of_ofFile (hfile path rfl)⟩
    | none =>
      rw [hstandard rfl]
      exact ⟨⟨.object [], rfl⟩, by decide +kernel⟩
  have hnames : ([("source", Value.text source), ("config", c.encode)].map Prod.fst).Nodup := by
    show ["source", "config"].Nodup
    decide
  have hmem : ("config", c.encode) ∈ [("source", Value.text source), ("config", c.encode)] :=
    List.mem_cons_of_mem _ List.mem_cons_self
  exact ⟨c, c.encode.sortKeys, hfile, hstandard, Rearrangement.sortKeys.field?_value hnames hmem,
    Config.decode?_encode .sortKeys (Config.regular_of_validate hc.1 hc.2), hc.2⟩

/-- Market maps, configurations, feeds, rows, logs, differences and envelopes are read back once
they are written if their pairs are normal and their numbers are finite, and so is whatever is read
as one of them.  A configuration that is shown is loaded again as what it is. -/
theorem lossless_forms :
    Lossless MarketMap.encode MarketMap.decode?
        (MarketMap.Forall fun _ market ↦ market.HasNormalPairs) ∧
      Lossless Config.encode Config.decode? Config.Regular ∧
      Lossless Feed.encode Feed.decode? Feed.Regular ∧
      Lossless VenueRow.encode VenueRow.decode? VenueRow.Regular ∧
      Lossless (DropLog.encode Feed.encode) (DropLog.decode? Feed.decode?)
        (DropLog.Forall Feed.Regular) ∧
      Lossless (DropLog.encode Market.encode) (DropLog.decode? Market.decode?)
        (DropLog.Forall Market.HasNormalPairs) ∧
      Lossless MarketDiff.encode MarketDiff.decode? MarketDiff.HasNormalPairs ∧
      Lossless Envelope.encode Envelope.decode? Envelope.HasSortedData ∧
      ∀ (engine : Engine) (databasePath : String) (stamp : CommandLine.Stamp)
        (p p' : CommandLine.Process) (file : Option String) (a : CommandLine.Answer),
        CommandLine.Process.exec
            (CommandLine.config (CommandLine.Process.host engine databasePath stamp) file) p =
          (.ok a, p') →
          ∃ c v, (∀ path, file = some path → Config.ofFile path (p.disk.read path) = .ok c) ∧
            (file = none → c = .standard) ∧ a.data.field? "config" = some v ∧
            Config.decode? v = some c ∧ c.validate = .ok () := by
  have hH := Value.hereditary_isFinite
  refine ⟨.of_yields (fun m hm ↦ MarketMap.decode?_encode .refl hm)
      (MarketMap.yields_hasNormalPairs hH),
    .of_yields (fun c hc ↦ Config.decode?_encode .refl hc) Config.yields_regular,
    .of_yields (fun f hf ↦ Feed.decode?_encode .refl hf) Feed.yields_regular,
    .of_yields (fun r hr ↦ VenueRow.decode?_encode .refl hr) VenueRow.yields_regular,
    .of_yields (fun log hlog ↦ DropLog.decode?_encode .refl
      (fun _ ↦ Feed.decode?_encode .refl) hlog) (DropLog.yields_forall hH Feed.yields_regular),
    .of_yields (fun log hlog ↦ DropLog.decode?_encode .refl
      (fun _ ↦ Market.decode?_encode .refl) hlog)
      (DropLog.yields_forall hH (Market.yields_hasNormalPairs hH)),
    .of_yields (fun d hd ↦ MarketDiff.decode?_encode .refl hd)
      (MarketDiff.yields_hasNormalPairs hH),
    .of_yields (fun e he ↦ Envelope.decode?_encode .refl (fun _ ↦ rfl) he)
      Envelope.yields_hasSortedData,
    fun _ _ _ _ _ _ _ h ↦ CommandLine.decode?_of_config h⟩

/-- The numbers of the small feeds are finite. -/
theorem Feed.regular_smallFeeds : ∀ f ∈ smallFeeds, f.Regular := by
  intro f hf
  have hpair := normal_smallFeeds f hf
  rcases List.mem_pair.1 hf with rfl | rfl
  · exact ⟨hpair, nofun, isFinite_zero, isFinite_zero, by decide +kernel, isFinite_zero,
      isFinite_zero⟩
  · exact ⟨hpair, nofun, isFinite_zero, isFinite_zero, by decide +kernel, isFinite_zero,
      isFinite_zero⟩

open CommandLine in
/-- The small feeds are read back.  A small document is read with standard quotes and aliases, which
are read back, too; the file that holds it is shown as it is. -/
theorem lossless_forms_small :
    (∀ f ∈ smallFeeds, Feed.decode? f.encode = some f) ∧
    (Config.decode? smallDocument = some .small ∧
      Config.decode? Config.small.encode = some .small) ∧
    ∃ a p v,
      Process.exec (config (Process.host .reliable "venues.duckdb" .small) (some "config.json"))
        (.start Session.small.disk) = (.ok a, p) ∧
      a.data.field? "config" = some v ∧ Config.decode? v = some .small := by
  have hdecode : Config.decode? smallDocument = some .small := rfl
  have hfinite := Value.IsFinite.of_writable writable_smallDocument
  have ha : Process.exec (config (Process.host .reliable "venues.duckdb" .small)
      (some "config.json")) (.start Session.small.disk) =
        (.ok (showConfig "config.json" .small), .start Session.small.disk) := by
    rw [config, Process.exec_content_bind]
    exact Process.ofExcept_bind_eq_ok.2 ⟨.small, mapError_eq_ok.2 ofFile_small, rfl⟩
  obtain ⟨-, hconfig, hfeed, -, -, -, -, -, hecho⟩ := lossless_forms
  obtain ⟨c, v, hfile, -, hv, hc, -⟩ := hecho _ _ _ _ _ _ _ ha
  have hsmall : c = .small := Except.ok.inj ((hfile "config.json" rfl).symm.trans ofFile_small)
  subst hsmall
  exact ⟨fun f hf ↦ hfeed.decode?_encode f (Feed.regular_smallFeeds f hf),
    ⟨hdecode, hconfig.decode?_reencode _ hfinite _ hdecode⟩, _, _, v, ha, hv, hc⟩

end OracleMarkets
