import OracleMarkets.Proofs.Stage.Restate

/-!
# The side from which a feed is told

`invertOrDrop` judges every feed by itself.  A feed is told from the side whose quote markets may
have; if both its symbols are such quotes it stays as it is, so a feed that was told from the other
side once is not turned over again.  What is kept is therefore what a second run of the stage keeps.
-/

namespace OracleMarkets

variable {c : Config} {f : Feed}

/-! ## One feed -/

/-- The feed with its two symbols in each other's place, and with the reciprocal of its price unless
that is zero.  It says of itself that it is turned over, even if it said so before. -/
def Feed.turnedOver (f : Feed) : Feed :=
  { f with
    ticker := { f.ticker with pair := ⟨f.pair.quote, f.pair.base⟩ }
    provider := { f.provider with invert := true }
    referencePrice := if f.referencePrice == 0.0 then f.referencePrice else 1.0 / f.referencePrice
    cmc := ⟨f.cmc.quoteId, f.cmc.baseId, f.cmc.quoteRank, f.cmc.baseRank⟩ }

/-- The feed from the side whose quote markets may have, if there is one. -/
def restated (c : Config) (f : Feed) : Feed :=
  if c.isTargetQuote f.pair.quote then f
  else if c.isTargetQuote f.pair.base then f.turnedOver
  else f

/-- Markets may have one of the symbols as their quote, and the feed told from that side does not
settle as the price of a symbol in itself. -/
def SettlesApart (c : Config) (f : Feed) : Prop :=
  (c.isTargetQuote f.pair.quote ∨ c.isTargetQuote f.pair.base) ∧
    (restated c f).pair.base ≠ c.settledQuote (restated c f).pair.quote

instance : DecidablePred (SettlesApart c) := fun _ ↦ inferInstanceAs (Decidable (_ ∧ _))

/-- Why a feed is left out that does not settle apart. -/
def sideRefusal (c : Config) (f : Feed) : String :=
  if c.isTargetQuote f.pair.quote ∨ c.isTargetQuote f.pair.base then
    let g := restated c f
    s!"{g.tickerText} would settle as {g.pair.base}/{g.pair.base}"
  else "cannot be inverted to configured quotes"

/-- A feed has a side that markets may have exactly if one of its symbols may be a quote. -/
theorem restate?_eq (c : Config) (f : Feed) :
    restate? c f =
      if c.isTargetQuote f.pair.quote ∨ c.isTargetQuote f.pair.base then some (restated c f)
      else none := by
  unfold restate? restated
  by_cases hq : c.isTargetQuote f.pair.quote = true
  · simp only [hq, if_true, true_or]
  · by_cases hb : c.isTargetQuote f.pair.base = true
    · simp only [hq, hb, Bool.false_eq_true, if_false, if_true, or_true]
      rfl
    · simp only [hq, hb, Bool.false_eq_true, if_false, or_self]

/-- A feed is judged from the side that markets may have. -/
theorem judgeRestated_eq (c : Config) (f : Feed) :
    judgeRestated c f =
      (restated c f, if SettlesApart c f then none else some (sideRefusal c f)) := by
  rw [judgeRestated, restate?_eq]
  by_cases hside : c.isTargetQuote f.pair.quote = true ∨ c.isTargetQuote f.pair.base = true
  · rw [if_pos hside]
    dsimp only
    by_cases hself : (restated c f).pair.base = c.settledQuote (restated c f).pair.quote
    · have hapart : ¬SettlesApart c f := fun h ↦ h.2 hself
      rw [if_pos hself, if_neg hapart, sideRefusal, if_pos hside]
    · have hapart : SettlesApart c f := ⟨hside, hself⟩
      rw [if_neg hself, if_pos hapart]
  · have hapart : ¬SettlesApart c f := fun h ↦ hside h.1
    have hself : restated c f = f := by
      rw [not_or] at hside
      rw [restated, if_neg hside.1, if_neg hside.2]
    rw [if_neg hside, if_neg hapart, hself, sideRefusal, if_neg hside]

/-! ## Once more -/

/-- The side that markets may have is a side with a quote that they may have. -/
theorem isTargetQuote_restated
    (h : c.isTargetQuote f.pair.quote = true ∨ c.isTargetQuote f.pair.base = true) :
    c.isTargetQuote (restated c f).pair.quote = true :=
  isTargetQuote_of_restate? (by rw [restate?_eq, if_pos h])

theorem restated_eq_self (h : c.isTargetQuote f.pair.quote = true) : restated c f = f := by
  rw [restated, if_pos h]

/-- A feed that was told from the side that markets may have is told from that side. -/
theorem restated_restated (h : SettlesApart c f) : restated c (restated c f) = restated c f :=
  restated_eq_self (isTargetQuote_restated h.1)

/-- A feed that is told from the right side still settles apart. -/
theorem SettlesApart.restated (h : SettlesApart c f) : SettlesApart c (restated c f) := by
  refine ⟨.inl (isTargetQuote_restated h.1), ?_⟩
  rw [restated_restated h]
  exact h.2

/-! ## All feeds -/

/-- The feeds that settle apart are kept, restated and in their order. -/
theorem sift_judgeRestated_fst (c : Config) (feeds : List Feed) :
    (sift (feeds.map (judgeRestated c))).1 =
      (feeds.filter (SettlesApart c ·)).map (restated c) := by
  rw [sift_map_fst, ← List.filterMap_eq_map, ← List.filterMap_eq_filter, List.filterMap_filterMap]
  refine List.filterMap_congr fun f _ ↦ ?_
  rw [judgeRestated_eq]
  by_cases hf : SettlesApart c f <;> simp [Option.guard, hf]

/-- A feed that does not settle apart is logged as it would have been kept. -/
theorem getD_sift_judgeRestated (c : Config) (feeds : List Feed) (ticker : String) :
    (sift (feeds.map (judgeRestated c))).2.getD ticker [] =
      (feeds.filter fun f ↦ ¬SettlesApart c f ∧ (restated c f).tickerText = ticker).map fun f ↦
        DropLog.ofFeed (restated c f) (sideRefusal c f) := by
  rw [getD_sift_snd, List.filter_map, List.filterMap_map, ← List.filterMap_eq_map,
    ← List.filterMap_eq_filter, ← List.filterMap_eq_filter, List.filterMap_filterMap,
    List.filterMap_filterMap]
  refine List.filterMap_congr fun f _ ↦ ?_
  simp only [Function.comp_apply, judgeRestated_eq]
  by_cases hticker : (restated c f).tickerText = ticker
  · by_cases hf : SettlesApart c f <;> simp [Option.guard, hticker, hf]
  · simp [Option.guard, hticker]

/-- The stage does not fail.  It keeps the feeds that settle apart, in their order and from the side
that markets may have, and logs each of the others once.  Of what it keeps, it keeps everything as
it is, and logs nothing. -/
theorem invertOrDrop_restates (c : Config) (feeds : List Feed) :
    ∃ kept log, invertOrDrop c feeds = .ok (kept, log) ∧
      kept = (feeds.filter (SettlesApart c ·)).map (restated c) ∧
      (∀ ticker, log.getD ticker [] =
        (feeds.filter fun f ↦ ¬SettlesApart c f ∧ (restated c f).tickerText = ticker).map fun f ↦
          DropLog.ofFeed (restated c f) (sideRefusal c f)) ∧
      invertOrDrop c kept = .ok (kept, ∅) := by
  refine ⟨_, _, rfl, sift_judgeRestated_fst c feeds, getD_sift_judgeRestated c feeds, ?_⟩
  refine congrArg Except.ok (sift_map_eq_self ?_)
  show ∀ h ∈ (sift (feeds.map (judgeRestated c))).1, judgeRestated c h = (h, none)
  rw [sift_judgeRestated_fst]
  intro h hh
  obtain ⟨f, hf, rfl⟩ := List.mem_map.1 hh
  have hapart : SettlesApart c f := of_decide_eq_true (List.mem_filter.1 hf).2
  rw [judgeRestated_eq, if_pos hapart.restated, restated_restated hapart]

example : ¬SettlesApart .standard (Feed.ofPrice ⟨"USD", "USDT"⟩ "okx" "USD-USDT" 1.0) := by
  decide +kernel

end OracleMarkets
