import OracleMarkets.Proofs.Stage.Basic
import OracleMarkets.Stage.Floors

/-!
# What the floors leave

The stages over floors never fail and keep every inherited property.  The floors of the venues also
leave out the feeds of a venue without settings, and the last of these stages leaves no feed that
lacks an id its venue requires.
-/

namespace OracleMarkets

variable {c : Config} {P : List Feed → Prop} {E : PipelineError → Prop}

open Stage (Meets)

/-- A verdict by the settings of venues lets a feed pass only if its venue has settings. -/
theorem isSome_provider?_of_byProvider {exempt : ProviderSettings → Bool}
    {verdict : ProviderSettings → Feed → Option String} {f : Feed}
    (h : byProvider exempt verdict c f = none) : (c.provider? f.venue).isSome := by
  unfold byProvider at h
  split at h
  · cases h
  · next hs => rw [hs]; rfl

theorem pruneByLiquidity_meets (hP : Inherited P) : Meets c pruneByLiquidity P P E :=
  .of_ok fun _ h ↦ ⟨_, _, rfl, (siftBy_spec hP h).1⟩

theorem pruneByQuoteVolume_meets (hP : Inherited P) : Meets c pruneByQuoteVolume P P E :=
  .of_ok fun _ h ↦ ⟨_, _, rfl, (siftBy_spec hP h).1⟩

theorem pruneByProviderLiquidity_meets (hP : Inherited P) :
    Meets c pruneByProviderLiquidity P
      (fun feeds ↦ P feeds ∧ ∀ f ∈ feeds, (c.provider? f.venue).isSome) E := by
  refine .of_ok fun _ h ↦ ⟨_, _, rfl, (siftBy_spec hP h).1, fun f hf ↦ ?_⟩
  exact isSome_provider?_of_byProvider ((siftBy_spec hP h).2 f hf)

theorem pruneByProviderUsdVolume_meets (hP : Inherited P) :
    Meets c pruneByProviderUsdVolume P P E :=
  .of_ok fun _ h ↦ ⟨_, _, rfl, (siftBy_spec hP h).1⟩

/-- A feed of a venue that requires ids lacks none if its base has one. -/
theorem lacksId?_eq_none_iff {f : Feed} :
    lacksId? c f = none ↔
      ∀ s, c.provider? f.venue = some s → s.requiresAggregateIds = true → f.cmc.baseId ≠ 0 := by
  rw [lacksId?, ite_eq_right_iff]
  cases c.provider? f.venue with
  | none => simp
  | some s => simp

/-- No feed that is left lacks an id that its venue requires. -/
theorem dropFeedsWithoutIds_meets (hP : Inherited P) :
    Meets c dropFeedsWithoutIds P (fun feeds ↦ P feeds ∧ ∀ f ∈ feeds, lacksId? c f = none) E :=
  .of_ok fun _ h ↦ ⟨_, _, rfl, siftBy_spec hP h⟩

end OracleMarkets
