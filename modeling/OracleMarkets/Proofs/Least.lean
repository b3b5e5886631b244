import Mathlib.Data.List.Induction
import OracleMarkets.Proofs.Ranking
import OracleMarkets.Stage.Identity
import OracleMarkets.Stage.Select

/-!
# The first of the least elements

The best of some elements is found in three ways: by a fold that replaces the best so far only by a
better one, as the least entry of a map, and as the head of the stable sort.  Each of them gives the
first of the elements that no other is better than (`IsFirstLeast`), so they agree, and for feeds
they give `Feed.firstUnbeaten?`.
-/

namespace OracleMarkets

section Least

variable {α : Type} (cmp : α → α → Ordering)

/-- `m` is less than what stands before it in the list, and no greater than what stands after it. -/
def IsFirstLeast (l : List α) (m : α) : Prop :=
  ∃ before after, l = before ++ m :: after ∧ (∀ a ∈ before, cmp m a = .lt) ∧
    ∀ a ∈ after, (cmp m a).isLE = true

variable {cmp} {l : List α} {m : α}

theorem IsFirstLeast.mem (h : IsFirstLeast cmp l m) : m ∈ l := by
  obtain ⟨before, after, rfl, -, -⟩ := h
  exact List.mem_append_right _ List.mem_cons_self

variable [Std.TransCmp cmp]

/-- The first of the least elements is no greater than any. -/
theorem IsFirstLeast.isLE (h : IsFirstLeast cmp l m) {a : α} (ha : a ∈ l) :
    (cmp m a).isLE = true := by
  obtain ⟨before, after, rfl, hbefore, hafter⟩ := h
  rcases List.mem_append.1 ha with ha | ha
  · rw [hbefore a ha]
    rfl
  · rcases List.mem_cons.1 ha with rfl | ha
    · exact Std.ReflCmp.isLE_rfl
    · exact hafter a ha

/-- The first of the least elements is the first that no element is less than. -/
theorem IsFirstLeast.find?_eq (h : IsFirstLeast cmp l m) :
    l.find? (fun a ↦ l.all fun b ↦ (cmp a b).isLE) = some m := by
  refine List.find?_eq_some_iff_append.2 ⟨List.all_eq_true.2 fun a ha ↦ h.isLE ha, ?_⟩
  have hm := h.mem
  obtain ⟨before, after, hl, hbefore, -⟩ := h
  refine ⟨before, after, hl, fun a ha ↦ ?_⟩
  rw [Bool.not_eq_true', List.all_eq_false]
  exact ⟨m, hm, by simp [Std.OrientedCmp.gt_iff_lt.2 (hbefore a ha)]⟩

/-- A new last element is the first of the least ones if it is less than the one so far. -/
theorem IsFirstLeast.concat (h : IsFirstLeast cmp l m) (x : α) :
    IsFirstLeast cmp (l ++ [x]) (if cmp m x = .gt then x else m) := by
  by_cases hx : cmp m x = .gt
  · rw [if_pos hx]
    refine ⟨l, [], rfl, fun a ha ↦ ?_, List.forall_mem_nil _⟩
    exact Std.TransCmp.lt_of_lt_of_isLE (Std.OrientedCmp.gt_iff_lt.1 hx) (h.isLE ha)
  · rw [if_neg hx]
    obtain ⟨before, after, rfl, hbefore, hafter⟩ := h
    refine ⟨before, after ++ [x], by simp, hbefore, fun a ha ↦ ?_⟩
    rcases List.mem_append.1 ha with ha | ha
    · exact hafter a ha
    · rw [List.mem_singleton.1 ha]
      exact Ordering.isLE_iff_ne_gt.2 hx

/-- A new first element is the first of the least ones unless one of the others is less. -/
theorem IsFirstLeast.cons (h : IsFirstLeast cmp l m) (x : α) :
    IsFirstLeast cmp (x :: l) (if (cmp x m).isLE = true then x else m) := by
  by_cases hx : (cmp x m).isLE = true
  · rw [if_pos hx]
    exact ⟨[], l, rfl, List.forall_mem_nil _, fun a ha ↦ isLE_trans hx (h.isLE ha)⟩
  · rw [if_neg hx]
    obtain ⟨before, after, rfl, hbefore, hafter⟩ := h
    refine ⟨x :: before, after, rfl, List.forall_mem_cons.2 ⟨?_, hbefore⟩, hafter⟩
    rw [Ordering.isLE_iff_ne_gt, not_not] at hx
    exact Std.OrientedCmp.gt_iff_lt.1 hx

/-- The fold that goes on with the lesser element ends with the first of the least ones. -/
theorem isFirstLeast_foldl (l : List α) (a : α) :
    IsFirstLeast cmp (a :: l) (l.foldl (fun best x ↦ if cmp best x = .gt then x else best) a) := by
  induction l using List.reverseRecOn with
  | nil => exact ⟨[], [], rfl, List.forall_mem_nil _, List.forall_mem_nil _⟩
  | append_singleton l x ih =>
    rw [List.foldl_append, List.foldl_cons, List.foldl_nil, ← List.cons_append]
    exact ih.concat x

omit [Std.TransCmp cmp] in
theorem leastBy?_eq_none_iff : leastBy? cmp l = none ↔ l = [] := by
  cases l <;> simp [leastBy?]

/-- What a search for the least finds is the first of the least elements. -/
theorem isFirstLeast_of_leastBy? (h : leastBy? cmp l = some m) : IsFirstLeast cmp l m := by
  cases l with
  | nil => cases h
  | cons a l =>
    cases h
    exact isFirstLeast_foldl l a

/-- The stable sort puts the first of the least elements in front. -/
theorem isFirstLeast_of_head?_mergeSort
    (h : (l.mergeSort fun a b ↦ (cmp a b).isLE).head? = some m) : IsFirstLeast cmp l m := by
  induction l generalizing m with
  | nil => simp at h
  | cons a l ih =>
    rw [mergeSort_cons_eq_orderedInsert] at h
    cases hs : l.mergeSort fun a b ↦ (cmp a b).isLE with
    | nil =>
      have hperm := List.mergeSort_perm l fun a b ↦ (cmp a b).isLE
      rw [hs] at h hperm
      rw [← hperm.nil_eq]
      cases h
      exact ⟨[], [], rfl, List.forall_mem_nil _, List.forall_mem_nil _⟩
    | cons b s =>
      have hb := (ih (by rw [hs, List.head?_cons])).cons a
      rw [hs, List.orderedInsert_cons] at h
      by_cases hab : (cmp a b).isLE = true
      · rw [if_pos hab, List.head?_cons] at h
        rw [if_pos hab] at hb
        exact Option.some.inj h ▸ hb
      · rw [if_neg hab, List.head?_cons] at h
        rw [if_neg hab] at hb
        exact Option.some.inj h ▸ hb

end Least

/-! ## The best feed -/

namespace Feed

/-- The first of the feeds that no other is better than. -/
def firstUnbeaten? (feeds : List Feed) : Option Feed :=
  feeds.find? fun f ↦ feeds.all fun g ↦ !f.isBeatenBy g

variable {feeds : List Feed} {best : Feed}

theorem firstUnbeaten?_eq_of_isFirstLeast (h : IsFirstLeast compareRank feeds best) :
    firstUnbeaten? feeds = some best := by
  simp only [firstUnbeaten?, not_isBeatenBy]
  exact h.find?_eq

theorem mem_of_firstUnbeaten? (h : firstUnbeaten? feeds = some best) : best ∈ feeds :=
  List.mem_of_find?_eq_some h

/-- A feed that no other is better than is as good as every one. -/
theorem rankLe_of_firstUnbeaten? (h : firstUnbeaten? feeds = some best) {f : Feed}
    (hf : f ∈ feeds) : best.rankLe f = true := by
  simp only [firstUnbeaten?, List.find?_eq_some_iff_append, List.all_eq_true,
    not_isBeatenBy] at h
  exact h.1 f hf

/-- The first feed by rank is the first that no other is better than. -/
theorem head?_sortByRank (feeds : List Feed) : (sortByRank feeds).head? = firstUnbeaten? feeds := by
  cases hs : (sortByRank feeds).head? with
  | none =>
    have hperm := sortByRank_perm feeds
    rw [List.head?_eq_none_iff.1 hs] at hperm
    rw [← hperm.nil_eq]
    rfl
  | some best =>
    exact (firstUnbeaten?_eq_of_isFirstLeast (isFirstLeast_of_head?_mergeSort hs)).symm

/-- Of some feeds there is one that no other is better than. -/
theorem exists_firstUnbeaten? {f : Feed} (hf : f ∈ feeds) :
    ∃ best, firstUnbeaten? feeds = some best := by
  have hne := List.ne_nil_of_mem ((sortByRank_perm feeds).mem_iff.2 hf)
  rw [← head?_sortByRank]
  exact ⟨_, List.head?_eq_some_head hne⟩

end Feed

/-- Replacing the best feed by a better one ends with the first that no other is better than. -/
theorem isFirstLeast_of_bestFeed? {feeds : List Feed} {best : Feed}
    (h : bestFeed? feeds = some best) : IsFirstLeast Feed.compareRank feeds best := by
  apply isFirstLeast_of_leastBy?
  rw [← h]
  cases feeds with
  | nil => rfl
  | cons f feeds => simp [bestFeed?, leastBy?, Feed.isBeatenBy]

/-- The best feed is the first that no other is better than. -/
theorem bestFeed?_eq_firstUnbeaten? (feeds : List Feed) :
    bestFeed? feeds = Feed.firstUnbeaten? feeds := by
  cases hb : bestFeed? feeds with
  | none =>
    cases feeds with
    | nil => rfl
    | cons f feeds => cases hb
  | some best => exact (Feed.firstUnbeaten?_eq_of_isFirstLeast (isFirstLeast_of_bestFeed? hb)).symm

end OracleMarkets
