import Mathlib.Data.List.Perm.Subperm
import OracleMarkets.Proofs.DropLog
import OracleMarkets.Proofs.Except
import OracleMarkets.Stage.Basic

/-!
# What a stage guarantees

A stage is specified by what it needs of its input, what it guarantees of its output, and the errors
it may fail with.  A chain guarantees what its last stage does if every stage guarantees what the
next one needs.  A stage that only leaves out or reorders feeds keeps every property that passes to
a part of a list.
-/

namespace OracleMarkets

theorem liftValidation_eq_ok {α : Type} {x : Except ValidationError α} {a : α} :
    liftValidation x = .ok a ↔ x = .ok a := by
  cases x <;> simp [liftValidation, Except.mapError]

theorem liftValidation_eq_error {α : Type} {x : Except ValidationError α} {e : PipelineError} :
    liftValidation x = .error e ↔ ∃ cause, x = .error cause ∧ e = .validation cause := by
  cases x with
  | error cause => simp [liftValidation, Except.mapError, eq_comm]
  | ok a => simp [liftValidation, Except.mapError]

namespace Stage

variable {α σ : Type} {c : Config} {P Q R : α → Prop} {E : PipelineError → Prop}

/-- A chain of two parts runs the one and then the other, and merges their logs. -/
theorem chain_append (stages rest : List (Stage α σ)) (a : α) :
    chain (stages ++ rest) c a = (do
      let (b, log) ← chain stages c a
      let (d, more) ← chain rest c b
      return (d, log.merge more)) := by
  induction stages generalizing a with
  | nil =>
    change chain rest c a = chain rest c a >>= fun out ↦ pure (out.1, DropLog.merge ∅ out.2)
    simp only [DropLog.empty_merge]
    exact (bind_pure _).symm
  | cons stage stages ih =>
    simp only [List.cons_append, chain, ih, bind_assoc, pure_bind, DropLog.merge_assoc]

/-- What comes out of a chain of two parts does not depend on the log of the first. -/
theorem map_fst_chain_append (stages rest : List (Stage α σ)) (a : α) :
    (chain (stages ++ rest) c a).map (·.1) =
      (chain stages c a).map (·.1) >>= fun b ↦ (chain rest c b).map (·.1) := by
  simp only [chain_append, map_eq_bind_pure, bind_assoc, pure_bind]

/-- A chain succeeds exactly if its first stage and the rest do, and its log is theirs together. -/
theorem chain_cons_eq_ok {stage : Stage α σ} {rest : List (Stage α σ)} {a b : α}
    {log : DropLog σ} :
    chain (stage :: rest) c a = .ok (b, log) ↔ ∃ mid first more,
      stage c a = .ok (mid, first) ∧ chain rest c mid = .ok (b, more) ∧ log = first.merge more := by
  rw [chain]
  constructor
  · intro h
    obtain ⟨⟨mid, first⟩, hmid, h⟩ := bind_eq_ok.1 h
    obtain ⟨⟨b', more⟩, hb, h⟩ := bind_eq_ok.1 h
    cases h
    exact ⟨mid, first, more, hmid, hb, rfl⟩
  · rintro ⟨mid, first, more, hmid, hb, rfl⟩
    exact bind_eq_ok.2 ⟨(mid, first), hmid, bind_eq_ok.2 ⟨(b, more), hb, rfl⟩⟩

theorem chain_append_eq_ok {stages rest : List (Stage α σ)} {a b : α} {log : DropLog σ} :
    chain (stages ++ rest) c a = .ok (b, log) ↔ ∃ mid first more,
      chain stages c a = .ok (mid, first) ∧ chain rest c mid = .ok (b, more) ∧
        log = first.merge more := by
  rw [chain_append]
  exact chain_cons_eq_ok

/-- A chain does the same under two configurations if each of its stages does. -/
theorem chain_congr {d : Config} {stages : List (Stage α σ)}
    (h : ∀ stage ∈ stages, ∀ a, stage c a = stage d a) (a : α) :
    chain stages c a = chain stages d a := by
  induction stages generalizing a with
  | nil => rfl
  | cons stage stages ih =>
    obtain ⟨hfirst, hrest⟩ := List.forall_mem_cons.1 h
    simp only [chain, hfirst, ih hrest]

/-- The stage turns what satisfies `P` into what satisfies `Q`, or it fails with an error that
satisfies `E`. -/
structure Meets (c : Config) (stage : Stage α σ) (P Q : α → Prop) (E : PipelineError → Prop) :
    Prop where
  ok : ∀ {a b : α} {log : DropLog σ}, P a → stage c a = .ok (b, log) → Q b
  error : ∀ {a : α} {e : PipelineError}, P a → stage c a = .error e → E e

theorem Meets.of_ok {stage : Stage α σ}
    (h : ∀ a, P a → ∃ b log, stage c a = .ok (b, log) ∧ Q b) : Meets c stage P Q E := by
  constructor
  · intro a b log ha hb
    obtain ⟨b', log', hb', hq⟩ := h a ha
    rw [hb'] at hb
    cases hb
    exact hq
  · intro a e ha he
    obtain ⟨b, log, hb, -⟩ := h a ha
    rw [hb] at he
    cases he

/-- A stage guarantees less as well, and what needs less. -/
theorem Meets.imp {stage : Stage α σ} {S T : α → Prop} (h : Meets c stage P Q E)
    (hp : ∀ a, S a → P a) (hq : ∀ a, Q a → T a) : Meets c stage S T E :=
  ⟨fun ha hb ↦ hq _ (h.ok (hp _ ha) hb), fun ha he ↦ h.error (hp _ ha) he⟩

theorem Meets.nil : Meets c (chain ([] : List (Stage α σ))) P P E :=
  .of_ok fun a ha ↦ ⟨a, ∅, rfl, ha⟩

/-- A chain goes on with what its first stage guarantees. -/
theorem Meets.cons {stage : Stage α σ} {rest : List (Stage α σ)} (h : Meets c stage P Q E)
    (hrest : Meets c (chain rest) Q R E) : Meets c (chain (stage :: rest)) P R E := by
  constructor
  · intro a d log ha hd
    obtain ⟨b, first, more, hb, hd, -⟩ := chain_cons_eq_ok.1 hd
    exact hrest.ok (h.ok ha hb) hd
  · intro a e ha he
    rw [chain] at he
    rcases bind_eq_error.1 he with he | ⟨⟨b, log₁⟩, hb, he⟩
    · exact h.error ha he
    · rcases bind_eq_error.1 he with he | ⟨d, -, he⟩
      · exact hrest.error (h.ok ha hb) he
      · cases he

/-- A chain of stages of which none fails does not fail. -/
theorem exists_chain_eq_ok {stages : List (Stage α σ)}
    (h : ∀ stage ∈ stages, ∀ a, ∃ out, stage c a = .ok out) (a : α) :
    ∃ out, chain stages c a = .ok out := by
  induction stages generalizing a with
  | nil => exact ⟨(a, ∅), rfl⟩
  | cons stage rest ih =>
    obtain ⟨hstage, hrest⟩ := List.forall_mem_cons.1 h
    obtain ⟨⟨b, log⟩, hb⟩ := hstage a
    obtain ⟨⟨d, more⟩, hd⟩ := ih hrest b
    exact ⟨(d, log.merge more), chain_cons_eq_ok.2 ⟨b, log, more, hb, hd, rfl⟩⟩

end Stage

/-! ## Sifting -/

theorem mem_sift {judged : List (Feed × Option String)} {f : Feed} :
    f ∈ (sift judged).1 ↔ (f, none) ∈ judged := by
  simp [sift]

/-- Feeds that are judged one by one are kept one by one. -/
theorem sift_map_fst (judge : Feed → Feed × Option String) (feeds : List Feed) :
    (sift (feeds.map judge)).1 =
      feeds.filterMap fun f ↦ if (judge f).2.isNone then some (judge f).1 else none := by
  rw [sift]
  induction feeds with
  | nil => rfl
  | cons f feeds ih =>
    rw [List.map_cons, List.filter_cons, List.filterMap_cons, ← ih]
    by_cases hj : (judge f).2.isNone = true
    · rw [if_pos hj, if_pos hj, List.map_cons]
    · rw [if_neg hj, if_neg hj]

/-- Nothing is left out, and nothing changes, if every feed is judged as itself without a reason. -/
theorem sift_map_eq_self {judge : Feed → Feed × Option String} {feeds : List Feed}
    (h : ∀ f ∈ feeds, judge f = (f, none)) : sift (feeds.map judge) = (feeds, ∅) := by
  induction feeds with
  | nil => rfl
  | cons f feeds ih =>
    obtain ⟨hf, hfeeds⟩ := List.forall_mem_cons.1 h
    obtain ⟨hkept, hlog⟩ := Prod.mk.inj (ih hfeeds)
    rw [List.map_cons, hf]
    exact Prod.ext (congrArg (f :: ·) hkept) hlog

/-- What is kept are the feeds without a reason, in their order. -/
theorem siftBy_fst (verdict : Feed → Option String) (feeds : List Feed) :
    (siftBy verdict feeds).1 = feeds.filter fun f ↦ (verdict f).isNone := by
  simp [siftBy, sift, List.filter_map, Function.comp_def]

theorem mem_siftBy {verdict : Feed → Option String} {feeds : List Feed} {f : Feed} :
    f ∈ (siftBy verdict feeds).1 ↔ f ∈ feeds ∧ verdict f = none := by
  rw [siftBy_fst, List.mem_filter, Option.isNone_iff_eq_none]

/-- Sifting records the feeds with a reason, one after another. -/
theorem sift_snd (judged : List (Feed × Option String)) :
    (sift judged).2 = (judged.filterMap fun j ↦ j.2.map (j.1, ·)).foldl
      (fun log r ↦ RemovalLog.recordFeed log r.1 r.2) ∅ := by
  rw [List.foldl_filterMap, sift]
  refine List.foldl_ext _ _ ∅ fun log j _ ↦ ?_
  obtain ⟨f, reason⟩ := j
  cases reason <;> rfl

/-- The log of sifted feeds has under each ticker those of the ticker that have a reason, in their
order. -/
theorem getD_sift_snd (judged : List (Feed × Option String)) (ticker : String) :
    (sift judged).2.getD ticker [] = (judged.filter fun j ↦ j.1.tickerText = ticker).filterMap
      fun j ↦ j.2.map (DropLog.ofFeed j.1) := by
  rw [sift_snd, DropLog.getD_foldl_recordFeed, ← List.filterMap_eq_filter, ← List.filterMap_eq_map,
    List.filterMap_filterMap, List.filterMap_filterMap, ← List.filterMap_eq_filter,
    List.filterMap_filterMap]
  refine List.filterMap_congr fun j _ ↦ ?_
  obtain ⟨f, reason⟩ := j
  by_cases hf : f.tickerText = ticker
  · cases reason <;> simp [Option.guard, hf]
  · cases reason <;> simp [Option.guard, hf]

theorem getD_siftBy_snd (verdict : Feed → Option String) (feeds : List Feed) (ticker : String) :
    (siftBy verdict feeds).2.getD ticker [] = (feeds.filter fun f ↦ f.tickerText = ticker).filterMap
      fun f ↦ (verdict f).map (DropLog.ofFeed f) := by
  rw [siftBy, getD_sift_snd, List.filter_map, List.filterMap_map]
  rfl

/-! ## Selecting -/

/-- The property passes from a list to every list of some of its feeds, in any order. -/
def Inherited (P : List Feed → Prop) : Prop := ∀ ⦃kept feeds⦄, kept.Subperm feeds → P feeds → P kept

theorem Inherited.and {P Q : List Feed → Prop} (hp : Inherited P) (hq : Inherited Q) :
    Inherited fun feeds ↦ P feeds ∧ Q feeds :=
  fun _ _ h hm ↦ ⟨hp h hm.1, hq h hm.2⟩

theorem inherited_forall (R : Feed → Prop) : Inherited fun feeds ↦ ∀ f ∈ feeds, R f :=
  fun _ _ h hm f hf ↦ hm f (h.subset hf)

/-- A symmetric relation between all feeds of a list passes to some of them in any order. -/
theorem inherited_pairwise {R : Feed → Feed → Prop} (hR : ∀ ⦃f g⦄, R f g → R g f) :
    Inherited fun feeds ↦ feeds.Pairwise R := by
  rintro kept feeds ⟨l, hl, hsub⟩ hm
  exact hl.pairwise (hm.sublist hsub) fun h ↦ hR h

/-- The feeds of a ticker have the same id of their base. -/
def OneBase (feeds : List Feed) : Prop :=
  ∀ f ∈ feeds, ∀ g ∈ feeds, f.tickerText = g.tickerText → f.cmc.baseId = g.cmc.baseId

/-- No two feeds share ticker and venue. -/
def OnePerVenue (feeds : List Feed) : Prop :=
  feeds.Pairwise fun f g ↦ ¬(f.tickerText = g.tickerText ∧ f.venue = g.venue)

theorem inherited_oneBase : Inherited OneBase :=
  fun _ _ h hm f hf g hg ↦ hm f (h.subset hf) g (h.subset hg)

theorem inherited_onePerVenue : Inherited OnePerVenue :=
  inherited_pairwise fun _ _ h hgf ↦ h ⟨hgf.1.symm, hgf.2.symm⟩

/-- Sifting keeps what is inherited, and no feed with a reason is left. -/
theorem siftBy_spec {P : List Feed → Prop} (hP : Inherited P) {verdict : Feed → Option String}
    {feeds : List Feed} (h : P feeds) :
    P (siftBy verdict feeds).1 ∧ ∀ f ∈ (siftBy verdict feeds).1, verdict f = none := by
  refine ⟨hP ?_ h, fun f hf ↦ (mem_siftBy.1 hf).2⟩
  rw [siftBy_fst]
  exact List.filter_sublist.subperm

/-- Parts of lists make a part of all their feeds. -/
theorem flatten_subperm {picked groups : List (List Feed)}
    (h : List.Forall₂ (fun p g ↦ p.Subperm g) picked groups) :
    picked.flatten.Subperm groups.flatten := by
  induction h with
  | nil => exact List.Subperm.refl _
  | cons hp _ ih => exact hp.append ih

end OracleMarkets
