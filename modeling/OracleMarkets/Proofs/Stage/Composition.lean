import OracleMarkets.Proofs.Stage.FeedChain

/-!
# Composition of chains

A chain that is cut in two runs its first part and then its second, and merges their logs.  This is
the recursion of a chain, but a chain also runs as a loop that carries the value and the log along,
and only since merging is associative, with the empty log as its identity, are the two the same.  A
chain fails with the error of the first stage that fails, and with no other.
-/

namespace OracleMarkets.Stage

variable {α σ : Type} {c : Config}

/-! ## The loop -/

/-- Runs a stage on the value that is carried along, and merges its log into the log that is. -/
def advance (c : Config) (carried : α × DropLog σ) (stage : Stage α σ) :
    Except PipelineError (α × DropLog σ) := do
  let (b, more) ← stage c carried.1
  return (b, carried.2.merge more)

/-- The stages one after another, in a loop that starts with the empty log. -/
def loop (stages : List (Stage α σ)) (c : Config) (a : α) :
    Except PipelineError (α × DropLog σ) :=
  stages.foldlM (advance c) (a, ∅)

/-- A loop that starts with a log merges into it what the chain logs. -/
theorem foldlM_advance (stages : List (Stage α σ)) (a : α) (log : DropLog σ) :
    stages.foldlM (advance c) (a, log) = (do
      let (b, more) ← chain stages c a
      return (b, log.merge more)) := by
  induction stages generalizing a log with
  | nil => rfl
  | cons stage stages ih =>
    -- The log of the first stage is merged into the log carried along before the others run, and
    -- into theirs by the chain: `merge_assoc` makes up for the difference.
    simp only [List.foldlM_cons, advance, chain, bind_assoc, pure_bind, ih, DropLog.merge_assoc]

/-- The loop over the stages is the recursion over them. -/
theorem loop_eq_chain (stages : List (Stage α σ)) : loop stages = chain stages := by
  funext c a
  rw [loop, foldlM_advance]
  simp only [DropLog.empty_merge]
  exact bind_pure _

/-! ## Failures -/

/-- A chain fails at its first stage, or after it. -/
theorem chain_cons_eq_error {stage : Stage α σ} {rest : List (Stage α σ)} {a : α}
    {e : PipelineError} :
    chain (stage :: rest) c a = .error e ↔
      stage c a = .error e ∨ ∃ b log, stage c a = .ok (b, log) ∧ chain rest c b = .error e := by
  rw [chain, bind_eq_error]
  refine or_congr_right ⟨?_, ?_⟩
  · rintro ⟨⟨b, log⟩, hb, h⟩
    rcases bind_eq_error.1 h with h | ⟨d, -, h⟩
    · exact ⟨b, log, hb, h⟩
    · cases h
  · rintro ⟨b, log, hb, h⟩
    exact ⟨(b, log), hb, bind_eq_error.2 (.inl h)⟩

/-- A chain fails with the error of a stage that fails on what the stages before it give. -/
theorem chain_eq_error_iff {stages : List (Stage α σ)} {a : α} {e : PipelineError} :
    chain stages c a = .error e ↔ ∃ before stage after b log,
      stages = before ++ stage :: after ∧ chain before c a = .ok (b, log) ∧
        stage c b = .error e := by
  constructor
  · intro h
    induction stages generalizing a with
    | nil => cases h
    | cons first rest ih =>
      rcases chain_cons_eq_error.1 h with h | ⟨mid, log, hmid, h⟩
      · exact ⟨[], first, rest, a, ∅, rfl, rfl, h⟩
      · obtain ⟨before, stage, after, b, more, rfl, hb, he⟩ := ih h
        exact ⟨first :: before, stage, after, b, log.merge more, rfl,
          chain_cons_eq_ok.2 ⟨mid, log, more, hmid, hb, rfl⟩, he⟩
  · rintro ⟨before, stage, after, b, log, rfl, hb, he⟩
    rw [chain_append, bind_eq_error]
    exact .inr ⟨(b, log), hb, bind_eq_error.2 (.inl (chain_cons_eq_error.2 (.inl he)))⟩

/-! ## Composition -/

/-- The loop over the stages of a list and then those of another is the loop over the one and then
the other, with their logs merged, and it fails with the error of the first stage that fails.
Merging is associative with the empty log as its identity, it puts the drops of a ticker one after
another and adds up their numbers, and a log that is made by recording and merging is empty exactly
if it counts no drop. -/
theorem loops_compose_and_logs_concatenate (c : Config) (stages rest : List (Stage α σ)) (a : α) :
    loop (stages ++ rest) c a = (do
      let (b, log) ← loop stages c a
      let (d, more) ← loop rest c b
      return (d, log.merge more)) ∧
    (∀ e, loop (stages ++ rest) c a = .error e ↔ ∃ before stage after b log,
      stages ++ rest = before ++ stage :: after ∧ loop before c a = .ok (b, log) ∧
        stage c b = .error e) ∧
    (∀ stages : List (Stage α σ), loop stages = chain stages) ∧
    (∀ log other more : DropLog σ,
      (log.merge other).merge more = log.merge (other.merge more)) ∧
    (∀ log : DropLog σ, log.merge ∅ = log ∧ DropLog.merge ∅ log = log) ∧
    (∀ (log other : DropLog σ) (ticker : String), (log.merge other).get? ticker =
      Option.merge (· ++ ·) (log.get? ticker) (other.get? ticker)) ∧
    (∀ log other : DropLog σ, (log.merge other).count = log.count + other.count) ∧
    (∀ (log : RemovalLog) (feed : Feed) (reason : String),
      log.Reached → DropLog.Reached (log.recordFeed feed reason)) ∧
    (∀ (log : ExclusionLog) (market : Market) (reason : String),
      log.Reached → DropLog.Reached (log.recordMarket market reason)) ∧
    ∀ log : DropLog σ, log.Reached → (log.isEmpty = true ↔ log.count = 0) := by
  refine ⟨?_, ?_, loop_eq_chain, DropLog.merge_assoc,
    fun log ↦ ⟨log.merge_empty, log.empty_merge⟩, DropLog.get?_merge_eq_merge, DropLog.count_merge,
    fun log feed reason h ↦ h.recordFeed feed reason,
    fun log market reason h ↦ h.recordMarket market reason,
    fun log h ↦ h.isEmpty_iff_count_eq_zero⟩
  · simp only [loop_eq_chain]
    exact chain_append stages rest a
  · intro e
    simp only [loop_eq_chain]
    exact chain_eq_error_iff

/-- The standard chain is its first five stages and then the others. -/
theorem loops_compose_and_logs_concatenate_feedStages :
    (standardFeedChain .small smallFeeds = do
      let (b, log) ← loop ((feedStages.take 5).map (·.2)) .small smallFeeds
      let (d, more) ← loop ((feedStages.drop 5).map (·.2)) .small b
      return (d, log.merge more)) ∧
    ∃ log : RemovalLog, log.Reached ∧ log.count = 2 ∧ (log.isEmpty = true ↔ log.count = 0) := by
  obtain ⟨hcompose, -, hloop, -, -, -, -, hrecord, -, hempty⟩ :=
    loops_compose_and_logs_concatenate .small ((feedStages.take 5).map (·.2))
      ((feedStages.drop 5).map (·.2)) smallFeeds
  have hreached : DropLog.Reached
      (smallFeeds.foldl (fun log f ↦ RemovalLog.recordFeed log f "quiet") ∅) :=
    hrecord _ _ _ (hrecord _ _ _ .empty)
  refine ⟨?_, _, hreached, by decide +kernel, hempty _ hreached⟩
  rw [← hcompose, hloop]
  rfl

end OracleMarkets.Stage
