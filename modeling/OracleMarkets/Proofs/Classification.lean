import OracleMarkets.Proofs.MarketDiff

/-!
# How a difference classifies keys

A generated market is new, differs from the deployed market of its key, or agrees with it.  So the
keys of created, updated and unchanged markets are three parts of the generated keys, each in their
order, and no generated key is left over.  With what is deployed at each key afterwards, this tells
a difference completely (`classifies_between`).
-/

namespace OracleMarkets

/-- The keys of a map strictly ascend. -/
theorem SortedMap.pairwise_keys_lt {α : Type} (m : SortedMap String α) :
    m.keys.Pairwise fun j k ↦ j < k := by
  rw [keys, List.pairwise_map]
  exact m.sorted.imp fun h ↦ compareOfLessAndEq_eq_lt.1 h

namespace MarketDiff

variable {o : DiffOptions} {current generated : MarketMap} {key : String} {market market' : Market}

/-! ## Classes -/

/-- What a generated market is to what is deployed. -/
inductive Kind where
  | new
  | changed
  | same
deriving DecidableEq, Repr

/-- What the generated market at a key is to what is deployed, once it has taken the flag that it is
to have. -/
def kind (o : DiffOptions) (current : MarketMap) (key : String) (market : Market) : Kind :=
  match current.get? key with
  | none => .new
  | some deployed => if candidate o deployed market = deployed then .same else .changed

/-- The generated keys of one kind. -/
def keysOf (o : DiffOptions) (current generated : MarketMap) (k : Kind) : List String :=
  (generated.filter fun key market ↦ kind o current key market = k).keys

theorem kind_eq_new_iff : kind o current key market = .new ↔ current.get? key = none := by
  rw [kind]
  cases current.get? key with
  | none => simp
  | some deployed => by_cases h : candidate o deployed market = deployed <;> simp [h]

theorem isSome_created? :
    (created? current key market).isSome = (kind o current key market = .new) := by
  rw [kind_eq_new_iff, created?]
  cases current.get? key <;> simp

theorem isSome_updated? :
    (updated? o current key market).isSome = (kind o current key market = .changed) := by
  rw [kind, updated?]
  cases current.get? key with
  | none => simp
  | some deployed => by_cases h : candidate o deployed market = deployed <;> simp [h]

theorem isUnchanged_eq :
    isUnchanged o current key market = decide (kind o current key market = .same) := by
  rw [kind, isUnchanged]
  cases current.get? key with
  | none => rfl
  | some deployed => by_cases h : candidate o deployed market = deployed <;> simp [h]

/-- A market stays unchanged exactly if what is deployed is already what it would become. -/
theorem isUnchanged_iff :
    isUnchanged o current key market = true ↔
      ∃ deployed, current.get? key = some deployed ∧ candidate o deployed market = deployed := by
  rw [isUnchanged]
  cases current.get? key <;> simp

theorem tickerText_of_created? (h : created? current key market = some market') :
    market'.tickerText = market.tickerText := by
  unfold created? at h
  split at h
  · cases h
    rfl
  · cases h

theorem tickerText_of_updated? (h : updated? o current key market = some market') :
    market'.tickerText = market.tickerText := by
  unfold updated? at h
  split at h
  · cases h
  · next deployed hdeployed =>
    dsimp only at h
    split at h
    · cases h
    · cases h
      exact tickerText_candidate o deployed market

/-! ## Parts of the generated keys -/

/-- Markets that are picked by their kind and keep their tickers stand under the keys of that
kind. -/
theorem map_tickerText_filterMap (hgen : generated.Keyed) {k : Kind}
    {pick : String → Market → Option Market}
    (hkind : ∀ key market, (pick key market).isSome = (kind o current key market = k))
    (hticker : ∀ {key market market'}, pick key market = some market' →
      market'.tickerText = market.tickerText) :
    (generated.toList.filterMap fun e ↦ pick e.1 e.2).map Market.tickerText =
      keysOf o current generated k := by
  have hkeys : keysOf o current generated k =
      (generated.toList.filter fun e ↦ kind o current e.1 e.2 = k).map (·.1) := rfl
  rw [hkeys, List.map_filterMap, ← List.filterMap_eq_map, ← List.filterMap_eq_filter,
    List.filterMap_filterMap]
  refine List.filterMap_congr fun e he ↦ ?_
  have hkey := hgen e.1 e.2 (SortedMap.get?_eq_some_iff.2 he)
  cases hmarket : pick e.1 e.2 with
  | none => simp [Option.guard, ← hkind, hmarket]
  | some market => simp [Option.guard, ← hkind, hmarket, hticker hmarket, ← hkey]

/-- Every generated key is of exactly one kind. -/
theorem keysOf_append_perm (o : DiffOptions) (current generated : MarketMap) :
    (keysOf o current generated .new ++ keysOf o current generated .changed ++
      keysOf o current generated .same).Perm generated.keys := by
  have run : ∀ entries : List (String × Market),
      ((entries.filter fun e ↦ kind o current e.1 e.2 = .new) ++
        (entries.filter fun e ↦ kind o current e.1 e.2 = .changed) ++
        entries.filter fun e ↦ kind o current e.1 e.2 = .same).Perm entries := by
    intro entries
    induction entries with
    | nil => rfl
    | cons e entries ih =>
      rw [List.append_assoc] at ih
      cases hkind : kind o current e.1 e.2 with
      | new => simpa [hkind] using ih
      | changed => simpa [hkind] using List.perm_middle.trans (ih.cons e)
      | same =>
        have hlast := (List.perm_middle.append_left _).trans (List.perm_middle.trans (ih.cons e))
        simpa [hkind] using hlast
  have hkeys := (run generated.toList).map (·.1)
  rwa [List.map_append, List.map_append] at hkeys

/-- The created markets are those of the new keys, in their order. -/
theorem map_tickerText_created (hgen : generated.Keyed) :
    (between o current generated).created.map Market.tickerText =
      keysOf o current generated .new :=
  map_tickerText_filterMap hgen (fun _ _ ↦ isSome_created?) tickerText_of_created?

theorem map_tickerText_updated (hgen : generated.Keyed) :
    (between o current generated).updated.map Market.tickerText =
      keysOf o current generated .changed :=
  map_tickerText_filterMap hgen (fun _ _ ↦ isSome_updated?) tickerText_of_updated?

theorem unchanged_between :
    (between o current generated).unchanged = keysOf o current generated .same := by
  rw [between, keysOf]
  simp only [← isUnchanged_eq]

/-! ## The whole difference -/

/-- What a difference says of each key, and what is deployed there afterwards. -/
structure Classifies (o : DiffOptions) (current generated : MarketMap) (d : MarketDiff) : Prop where
  /-- Every generated key is that of one created, updated or unchanged market, and of only one. -/
  classes : (d.created.map Market.tickerText ++ d.updated.map Market.tickerText ++
    d.unchanged).Perm generated.keys
  created : ∀ key, key ∈ d.created.map Market.tickerText ↔
    generated.contains key = true ∧ current.contains key = false
  unchanged : ∀ key, key ∈ d.unchanged ↔ ∃ market, generated.get? key = some market ∧
    ∃ deployed, current.get? key = some deployed ∧ candidate o deployed market = deployed
  retained : ∀ key, key ∈ d.retained ↔
    current.contains key = true ∧ generated.contains key = false
  created_lt : (d.created.map Market.tickerText).Pairwise (· < ·)
  updated_lt : (d.updated.map Market.tickerText).Pairwise (· < ·)
  unchanged_lt : d.unchanged.Pairwise (· < ·)
  retained_lt : d.retained.Pairwise (· < ·)
  apply_new : ∀ key market, generated.get? key = some market → current.get? key = none →
    (d.apply current).get? key = some market
  /-- At a common key, the generated market is deployed with the flag that it is to have. -/
  apply_common : ∀ key market deployed, generated.get? key = some market →
    current.get? key = some deployed →
      (d.apply current).get? key = some { market with ticker := { market.ticker with
        enabled := if o.overwriteEnabled then market.ticker.enabled else deployed.ticker.enabled } }
  /-- At every other key, what is deployed stays, and if that is nothing, so does this. -/
  apply_other : ∀ key, generated.get? key = none →
    (d.apply current).get? key = current.get? key

/-- If every generated market stands under its ticker, a difference classifies every generated key
in exactly one way and retains the deployed keys that are not generated, in the order of the keys.
Applied, it deploys the generated markets with the flags that they are to have, and leaves all else
as it is. -/
theorem classifies_between (hgen : generated.Keyed) (o : DiffOptions) (current : MarketMap) :
    Classifies o current generated (between o current generated) := by
  constructor
  case classes =>
    rw [map_tickerText_created hgen, map_tickerText_updated hgen, unchanged_between]
    exact keysOf_append_perm o current generated
  case created =>
    intro key
    rw [map_tickerText_created hgen, keysOf, SortedMap.mem_keys_filter,
      SortedMap.contains_eq_false_iff, SortedMap.contains, Option.isSome_iff_exists]
    simp only [decide_eq_true_eq, kind_eq_new_iff, exists_and_right]
  case unchanged =>
    intro key
    rw [between, SortedMap.mem_keys_filter]
    simp only [isUnchanged_iff]
  case retained =>
    intro key
    rw [between, SortedMap.mem_keys_filter, exists_and_right, ← Option.isSome_iff_exists,
      ← SortedMap.contains, Bool.not_eq_true']
  case created_lt =>
    rw [map_tickerText_created hgen]
    exact SortedMap.pairwise_keys_lt _
  case updated_lt =>
    rw [map_tickerText_updated hgen]
    exact SortedMap.pairwise_keys_lt _
  case unchanged_lt => exact SortedMap.pairwise_keys_lt _
  case retained_lt => exact SortedMap.pairwise_keys_lt _
  case apply_new =>
    intro key market hmarket hnone
    rw [get?_apply hgen, hmarket, hnone]
    rfl
  case apply_common =>
    intro key market deployed hmarket hdeployed
    rw [get?_apply hgen, hmarket, hdeployed, ← candidate_eq]
    rfl
  case apply_other =>
    intro key hnone
    rw [get?_apply hgen, hnone, settled_none]

/-- Of these markets one is created, one updated, one unchanged and one retained. -/
theorem classifies_between_small :
    smallGenerated.Keyed ∧
      (between ⟨false⟩ smallDeployed smallGenerated).created.map Market.tickerText = ["USDC/USD"] ∧
      (between ⟨false⟩ smallDeployed smallGenerated).updated.map Market.tickerText = ["SOL/USD"] ∧
      (between ⟨false⟩ smallDeployed smallGenerated).unchanged = ["USDT/USD"] ∧
      (between ⟨false⟩ smallDeployed smallGenerated).retained = ["ETH/USD"] ∧
      Classifies ⟨false⟩ smallDeployed smallGenerated
        (between ⟨false⟩ smallDeployed smallGenerated) := by
  have hgen : smallGenerated.Keyed := MarketMap.keyed_of_validate (by decide +kernel)
  exact ⟨hgen, by decide +kernel, by decide +kernel, by decide +kernel, by decide +kernel,
    classifies_between hgen ⟨false⟩ smallDeployed⟩

end MarketDiff

end OracleMarkets
