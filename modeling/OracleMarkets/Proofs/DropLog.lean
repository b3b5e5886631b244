import OracleMarkets.DropLog
import OracleMarkets.Proofs.SortedMap

/-!
# What a log of drops holds

A merged log has under each ticker the drops of the one log before those of the other, so merging is
associative and the empty log is its identity.  Seen as a list of snapshots, up to order, whatever
is added to a log is added to the list.
-/

namespace OracleMarkets.DropLog

variable {σ : Type}

/-! ## Merging -/

/-- The drops of a ticker in a merged log. -/
theorem get?_merge (log other : DropLog σ) (ticker : String) :
    (log.merge other).get? ticker =
      match other.get? ticker with
      | none => log.get? ticker
      | some drops => some ((log.get? ticker).getD [] ++ drops) := by
  have hfold : (log.merge other).get? ticker = (other.toList.filter fun e ↦ e.1 = ticker).foldl
      (fun old e ↦ some (old.getD [] ++ e.2)) (log.get? ticker) :=
    SortedMap.get?_foldl_alter (fun e : String × List (Drop σ) ↦ e.1)
      (fun e old ↦ Option.getD old [] ++ e.2) other.toList log ticker
  rw [hfold, SortedMap.filter_toList_eq]
  cases other.get? ticker with
  | none => rfl
  | some drops => rfl

theorem getD_merge (log other : DropLog σ) (ticker : String) :
    (log.merge other).getD ticker [] = log.getD ticker [] ++ other.getD ticker [] := by
  rw [SortedMap.getD, get?_merge]
  cases hother : other.get? ticker with
  | none => simp [SortedMap.getD, hother]
  | some drops => simp [SortedMap.getD, hother]

@[simp] theorem empty_merge (log : DropLog σ) : merge ∅ log = log := by
  refine SortedMap.ext_get? fun ticker ↦ ?_
  rw [get?_merge]
  cases log.get? ticker with
  | none => rfl
  | some drops => rfl

/-- Merging is associative. -/
theorem merge_assoc (log other more : DropLog σ) :
    (log.merge other).merge more = log.merge (other.merge more) := by
  refine SortedMap.ext_get? fun ticker ↦ ?_
  rw [get?_merge, get?_merge, get?_merge, get?_merge]
  cases more.get? ticker with
  | none => rfl
  | some drops =>
    cases other.get? ticker with
    | none => rfl
    | some drops' => simp

@[simp] theorem merge_empty (log : DropLog σ) : log.merge ∅ = log := rfl

/-- A ticker that both logs have has the drops of the one before those of the other. -/
theorem get?_merge_eq_merge (log other : DropLog σ) (ticker : String) :
    (log.merge other).get? ticker =
      Option.merge (· ++ ·) (log.get? ticker) (other.get? ticker) := by
  rw [get?_merge]
  cases other.get? ticker with
  | none => cases log.get? ticker <;> rfl
  | some drops => cases log.get? ticker <;> rfl

/-! ## Drops -/

/-- The log has the drop under the ticker. -/
def Holds (log : DropLog σ) (ticker : String) (d : Drop σ) : Prop :=
  ∃ drops, log.get? ticker = some drops ∧ d ∈ drops

theorem holds_record (log : DropLog σ) (ticker reason provider : String) (snapshot : σ) :
    (log.record ticker reason provider snapshot).Holds ticker ⟨reason, provider, snapshot⟩ := by
  rw [record, Holds, get?_append, if_pos rfl]
  exact ⟨_, rfl, List.mem_append_right _ List.mem_cons_self⟩

/-- What a log has stays when drops are added. -/
theorem Holds.append {log : DropLog σ} {ticker : String} {d : Drop σ} (h : log.Holds ticker d)
    (ticker' : String) (drops : List (Drop σ)) : (log.append ticker' drops).Holds ticker d := by
  obtain ⟨former, hformer, hd⟩ := h
  rw [Holds, get?_append]
  by_cases hticker : ticker = ticker'
  · subst hticker
    rw [if_pos rfl, hformer]
    exact ⟨_, rfl, List.mem_append_left _ hd⟩
  · rw [if_neg hticker]
    exact ⟨former, hformer, hd⟩

/-! ## Snapshots -/

/-- What was left out, ticker by ticker. -/
def snapshots (log : DropLog σ) : List σ := log.values.flatten.map (·.snapshot)

/-- A log counts what it holds. -/
theorem count_eq_length_snapshots (log : DropLog σ) : log.count = log.snapshots.length := by
  rw [count, snapshots, List.length_map]

@[simp] theorem snapshots_empty : (∅ : DropLog σ).snapshots = [] := rfl

theorem snapshots_append_perm (log : DropLog σ) (ticker : String) (drops : List (Drop σ)) :
    (log.append ticker drops).snapshots.Perm (log.snapshots ++ drops.map (·.snapshot)) := by
  have h : (log.append ticker drops).values.flatten.Perm (log.values.flatten ++ drops) :=
    SortedMap.flatten_alterEntries_perm ticker drops log.toList
  rw [snapshots, snapshots, ← List.map_append]
  exact h.map _

theorem snapshots_merge_perm (log other : DropLog σ) :
    (log.merge other).snapshots.Perm (log.snapshots ++ other.snapshots) := by
  have run : ∀ (entries : List (String × List (Drop σ))) (m : DropLog σ),
      (entries.foldl (fun m e ↦ m.append e.1 e.2) m).snapshots.Perm
        (m.snapshots ++ (entries.map (·.2)).flatten.map (·.snapshot)) := by
    intro entries
    induction entries with
    | nil => intro m; simp
    | cons e entries ih =>
      intro m
      refine (ih (m.append e.1 e.2)).trans ?_
      rw [List.map_cons, List.flatten_cons, List.map_append, ← List.append_assoc]
      exact (snapshots_append_perm m e.1 e.2).append_right _
  exact run other.toList log

/-- A merged log has as many drops as its parts have together. -/
theorem count_merge (log other : DropLog σ) :
    (log.merge other).count = log.count + other.count := by
  simp only [count_eq_length_snapshots]
  exact (snapshots_merge_perm log other).length_eq.trans List.length_append

/-- Recording a feed adds this feed. -/
theorem snapshots_recordFeed_perm (log : RemovalLog) (feed : Feed) (reason : String) :
    (log.recordFeed feed reason).snapshots.Perm (log.snapshots ++ [feed]) :=
  snapshots_append_perm log feed.tickerText [⟨reason, feed.venue, feed⟩]

/-- Recording a market adds one drop. -/
theorem count_recordMarket (log : ExclusionLog) (market : Market) (reason : String) :
    (log.recordMarket market reason).count = log.count + 1 := by
  rw [count_eq_length_snapshots, count_eq_length_snapshots]
  exact (snapshots_append_perm log market.tickerText
    [⟨reason, ",".intercalate market.providerNames, market⟩]).length_eq.trans List.length_append

/-- Feeds that are recorded one after another are added to the log. -/
theorem snapshots_foldl_recordFeed_perm (removed : List (Feed × String)) (log : RemovalLog) :
    (removed.foldl (fun log r ↦ log.recordFeed r.1 r.2) log).snapshots.Perm
      (log.snapshots ++ removed.map (·.1)) := by
  induction removed generalizing log with
  | nil => simp
  | cons r removed ih =>
    refine (ih (log.recordFeed r.1 r.2)).trans ?_
    rw [List.map_cons, List.append_cons]
    exact (snapshots_recordFeed_perm log r.1 r.2).append_right _

/-! ## The drops of a ticker -/

theorem getD_append (log : DropLog σ) (ticker key : String) (drops : List (Drop σ)) :
    (log.append ticker drops).getD key [] =
      log.getD key [] ++ if ticker = key then drops else [] := by
  rw [SortedMap.getD, get?_append]
  by_cases h : ticker = key
  · subst h
    rw [if_pos rfl, if_pos rfl]
    rfl
  · rw [if_neg (Ne.symm h), if_neg h, List.append_nil]
    rfl

/-- Drops that are added one after another stand under their tickers in that order. -/
theorem getD_foldl_append {α : Type} (ticker : α → String) (drop : α → Drop σ) (l : List α)
    (log : DropLog σ) (key : String) :
    (l.foldl (fun log a ↦ log.append (ticker a) [drop a]) log).getD key [] =
      log.getD key [] ++ (l.filter fun a ↦ ticker a = key).map drop := by
  induction l generalizing log with
  | nil => rw [List.foldl_nil, List.filter_nil, List.map_nil, List.append_nil]
  | cons a l ih =>
    rw [List.foldl_cons, ih, getD_append, List.append_assoc]
    by_cases h : ticker a = key <;> simp [h]

/-- What is recorded of a feed that is left out for a reason. -/
def ofFeed (f : Feed) (reason : String) : Drop Feed := ⟨reason, f.venue, f⟩

/-- Feeds that are recorded one after another stand under their tickers in that order. -/
theorem getD_foldl_recordFeed (removed : List (Feed × String)) (ticker : String) :
    (removed.foldl (fun log r ↦ log.recordFeed r.1 r.2) (∅ : RemovalLog)).getD ticker [] =
      (removed.filter fun r ↦ r.1.tickerText = ticker).map fun r ↦ ofFeed r.1 r.2 :=
  getD_foldl_append (fun r : Feed × String ↦ r.1.tickerText) (fun r ↦ ofFeed r.1 r.2)
    removed ∅ ticker

/-! ## Logs that are made by recording -/

/-- The log is made from the empty one by recording drops and merging. -/
inductive Reached : DropLog σ → Prop
  | empty : Reached ∅
  | record {log : DropLog σ} (h : Reached log) (ticker reason provider : String) (snapshot : σ) :
    Reached (log.record ticker reason provider snapshot)
  | merge {log other : DropLog σ} (h : Reached log) (h' : Reached other) : Reached (log.merge other)

theorem Reached.recordFeed {log : RemovalLog} (h : log.Reached) (feed : Feed) (reason : String) :
    Reached (log.recordFeed feed reason) :=
  h.record feed.tickerText reason feed.venue feed

theorem Reached.recordMarket {log : ExclusionLog} (h : log.Reached) (market : Market)
    (reason : String) : Reached (log.recordMarket market reason) :=
  h.record market.tickerText reason (",".intercalate market.providerNames) market

/-- No ticker of a log that is made by recording is without a drop. -/
theorem Reached.get?_ne_nil {log : DropLog σ} (h : log.Reached) (ticker : String) :
    log.get? ticker ≠ some [] := by
  induction h with
  | empty => exact Option.some_ne_none _ ∘ Eq.symm
  | @record log _ ticker' _ _ _ ih =>
    rw [DropLog.record, get?_append]
    split
    · simp
    · exact ih
  | @merge log other _ _ ih ih' =>
    rw [get?_merge]
    cases hother : other.get? ticker with
    | none => exact ih
    | some drops =>
      have hdrops : drops ≠ [] := fun hnil ↦ ih' (hother.trans (congrArg some hnil))
      simp [hdrops]

/-- A log that is made by recording is empty exactly if it counts no drop. -/
theorem Reached.isEmpty_iff_count_eq_zero {log : DropLog σ} (h : log.Reached) :
    log.isEmpty = true ↔ log.count = 0 := by
  rw [SortedMap.isEmpty_iff]
  constructor
  · rintro rfl
    rfl
  · intro hcount
    refine SortedMap.ext_get? fun ticker ↦ ?_
    rw [SortedMap.get?_empty, ← Option.not_isSome_iff_eq_none, Option.isSome_iff_exists]
    rintro ⟨drops, hdrops⟩
    have hmem : drops ∈ log.values :=
      List.mem_map_of_mem (SortedMap.get?_eq_some_iff.1 hdrops)
    have hnil : drops = [] :=
      List.flatten_eq_nil_iff.1 (List.length_eq_zero_iff.1 hcount) drops hmem
    exact h.get?_ne_nil ticker (hnil ▸ hdrops)

/-- The law needs that the log is made by recording: a log that is read from a document may have a
ticker without a drop. -/
example :
    (decode? (fun _ ↦ some ()) (.object [("BTC/USD", .list [])])).map
      (fun log ↦ (log.isEmpty, log.count)) = some (false, 0) := by
  decide

end OracleMarkets.DropLog
