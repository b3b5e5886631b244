import Mathlib.Data.List.Sort

/-!
# Stable sorting by a comparison

The sorted list of a lawful comparison is the one that insertion gives, so it can be told element by
element.  Lists with the same elements sort to the same list if the comparison tells these elements
apart, and what is left out of a list may be left out before or after it is sorted.
-/

namespace OracleMarkets

variable {α : Type} (cmp : α → α → Ordering) [Std.TransCmp cmp]

variable {cmp} in
theorem isLE_trans {a b c : α} (hab : (cmp a b).isLE = true) (hbc : (cmp b c).isLE = true) :
    (cmp a c).isLE = true :=
  Std.TransCmp.isLE_trans hab hbc

variable {cmp} in
theorem isLE_total (a b : α) : ((cmp a b).isLE || (cmp b a).isLE) = true := by
  have hswap : cmp b a = (cmp a b).swap := Std.OrientedCmp.eq_swap
  rw [hswap]
  cases cmp a b <;> rfl

/-- The sorted list ascends. -/
theorem pairwise_mergeSort_isLE (l : List α) :
    (l.mergeSort fun a b ↦ (cmp a b).isLE).Pairwise fun a b ↦ (cmp a b).isLE = true :=
  List.pairwise_mergeSort (fun _ _ _ ↦ isLE_trans) isLE_total l

/-- Sorting puts the first element in front of those that are as great, after those that are
less. -/
theorem mergeSort_cons_eq_orderedInsert (a : α) (l : List α) :
    ((a :: l).mergeSort fun a b ↦ (cmp a b).isLE) =
      List.orderedInsert (fun a b ↦ (cmp a b).isLE = true) a
        (l.mergeSort fun a b ↦ (cmp a b).isLE) := by
  obtain ⟨l₁, l₂, hal, hl, hlt⟩ :=
    @List.mergeSort_cons α (fun a b ↦ (cmp a b).isLE) (fun _ _ _ ↦ isLE_trans) isLE_total a l
  have hsorted := pairwise_mergeSort_isLE cmp (a :: l)
  rw [hal] at hsorted ⊢
  rw [hl]
  have hge : ∀ b ∈ l₂, (cmp a b).isLE = true :=
    (List.pairwise_cons.1 (List.pairwise_append.1 hsorted).2.1).1
  clear hsorted hal hl
  induction l₁ with
  | nil =>
    cases l₂ with
    | nil => rfl
    | cons b l₂ => simp [hge b List.mem_cons_self]
  | cons b l₁ ih =>
    have hb : (cmp a b).isLE = false := by simpa using hlt b List.mem_cons_self
    rw [List.cons_append, List.cons_append, List.orderedInsert_cons, if_neg (by simp [hb]),
      ← ih fun x hx ↦ hlt x (List.mem_cons_of_mem _ hx)]

/-- The stable sort is insertion. -/
theorem mergeSort_eq_insertionSort (l : List α) :
    (l.mergeSort fun a b ↦ (cmp a b).isLE) =
      l.insertionSort fun a b ↦ (cmp a b).isLE = true := by
  induction l with
  | nil => simp
  | cons a l ih => rw [mergeSort_cons_eq_orderedInsert, ih, List.insertionSort_cons]

/-- Lists with the same elements sort to the same list if no two of these elements compare equal. -/
theorem mergeSort_eq_of_perm {l m : List α} (h : l.Perm m)
    (heq : ∀ a ∈ l, ∀ b ∈ l, cmp a b = .eq → a = b) :
    (l.mergeSort fun a b ↦ (cmp a b).isLE) = m.mergeSort fun a b ↦ (cmp a b).isLE := by
  refine List.Perm.eq_of_pairwise ?_ (pairwise_mergeSort_isLE cmp l) (pairwise_mergeSort_isLE cmp m)
    ((List.mergeSort_perm l _).trans (h.trans (List.mergeSort_perm m _).symm))
  intro a b ha hb hab hba
  exact heq a (List.mem_mergeSort.1 ha) b (h.mem_iff.2 (List.mem_mergeSort.1 hb))
    (Std.OrientedCmp.isLE_antisymm hab hba)

/-! ## Leaving elements out -/

variable {cmp} in
/-- Leaving elements out of an ascending list before or after an insertion is the same. -/
theorem filter_orderedInsert (p : α → Bool) (a : α) {l : List α}
    (hl : l.Pairwise fun a b ↦ (cmp a b).isLE = true) :
    (l.orderedInsert (fun a b ↦ (cmp a b).isLE = true) a).filter p =
      if p a then (l.filter p).orderedInsert (fun a b ↦ (cmp a b).isLE = true) a
      else l.filter p := by
  induction l with
  | nil => by_cases ha : p a = true <;> simp [ha]
  | cons b l ih =>
    obtain ⟨hb, hl⟩ := List.pairwise_cons.1 hl
    by_cases hab : (cmp a b).isLE = true
    · -- The new element comes first, also among what is left of the list.
      have hle : ∀ x ∈ (b :: l).filter p, (cmp a x).isLE = true := by
        intro x hx
        rcases List.mem_cons.1 (List.mem_of_mem_filter hx) with rfl | hx
        · exact hab
        · exact isLE_trans hab (hb x hx)
      rw [List.orderedInsert_cons, if_pos hab, List.filter_cons]
      cases hs : (b :: l).filter p with
      | nil => rfl
      | cons x s =>
        rw [List.orderedInsert_cons, if_pos (hle x (hs ▸ List.mem_cons_self))]
    · rw [List.orderedInsert_cons, if_neg hab, List.filter_cons, ih hl, List.filter_cons]
      by_cases hpb : p b = true
      · by_cases hpa : p a = true
        · rw [if_pos hpb, if_pos hpa, if_pos hpa, if_pos hpb, List.orderedInsert_cons, if_neg hab]
        · rw [if_pos hpb, if_neg hpa, if_neg hpa, if_pos hpb]
      · rw [if_neg hpb, if_neg hpb]

/-- Leaving elements out before or after a stable sort is the same. -/
theorem filter_mergeSort (p : α → Bool) (l : List α) :
    (l.mergeSort fun a b ↦ (cmp a b).isLE).filter p =
      (l.filter p).mergeSort fun a b ↦ (cmp a b).isLE := by
  induction l with
  | nil => simp
  | cons a l ih =>
    rw [mergeSort_cons_eq_orderedInsert, filter_orderedInsert p a (pairwise_mergeSort_isLE cmp l),
      ih, List.filter_cons]
    split
    · rw [mergeSort_cons_eq_orderedInsert]
    · rfl

/-- A stable sort leaves elements of which none is greater than another in their order. -/
theorem filter_mergeSort_of_isLE {p : α → Bool}
    (h : ∀ a b, p a = true → p b = true → (cmp a b).isLE = true) (l : List α) :
    (l.mergeSort fun a b ↦ (cmp a b).isLE).filter p = l.filter p := by
  rw [filter_mergeSort]
  refine List.mergeSort_of_pairwise (List.pairwise_of_forall_mem_list fun a ha b hb ↦ ?_)
  exact h a b (List.mem_filter.1 ha).2 (List.mem_filter.1 hb).2

end OracleMarkets
