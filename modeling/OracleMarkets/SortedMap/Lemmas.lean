import OracleMarkets.SortedMap.Basic

/-!
# Lemmas about sorted maps

A map is seen through `get?`: there is one equation for each operation, and maps that agree
everywhere are equal (`SortedMap.ext_get?`).
-/

namespace OracleMarkets.SortedMap

variable {κ α β : Type} [Ord κ]

@[simp] theorem get?_empty (k : κ) : (∅ : SortedMap κ α).get? k = none := rfl

@[simp] theorem isEmpty_iff {m : SortedMap κ α} : m.isEmpty = true ↔ m = ∅ := by
  constructor
  · intro h
    obtain ⟨l, hl⟩ := m
    cases l with
    | nil => rfl
    | cons e l => simp [isEmpty] at h
  · rintro rfl
    rfl

section Lookup

variable [Std.TransOrd κ] [Std.LawfulEqOrd κ]

omit [Std.TransOrd κ] [Std.LawfulEqOrd κ] in
theorem lookup_eq_none_of_forall_lt {k : κ} {l : List (κ × α)}
    (h : ∀ e ∈ l, compare k e.1 = .lt) : lookup k l = none := by
  induction l with
  | nil => rfl
  | cons e l ih =>
    have he := h e List.mem_cons_self
    simp only [lookup, he, reduceCtorEq, if_false]
    exact ih fun x hx ↦ h x (List.mem_cons_of_mem _ hx)

theorem lookup_alterEntries [DecidableEq κ] (k j : κ) (f : Option α → α) {l : List (κ × α)}
    (h : l.Pairwise (fun a b ↦ compare a.1 b.1 = .lt)) :
    lookup j (alterEntries k f l) = if j = k then some (f (lookup k l)) else lookup j l := by
  induction l with
  | nil =>
    by_cases hjk : j = k
    · subst hjk; simp [alterEntries, lookup]
    · simp [alterEntries, lookup, hjk]
  | cons e l ih =>
    obtain ⟨i, a⟩ := e
    obtain ⟨hi, hl⟩ := List.pairwise_cons.1 h
    unfold alterEntries
    split
    · rename_i hc
      have hnone : lookup k l = none :=
        lookup_eq_none_of_forall_lt fun x hx ↦ Std.TransCmp.lt_trans hc (hi x hx)
      by_cases hjk : j = k
      · subst hjk; simp [lookup, hc, hnone]
      · simp [lookup, hjk]
    · rename_i hc
      cases Std.LawfulEqCmp.compare_eq_iff_eq.1 hc
      by_cases hjk : j = k
      · subst hjk; simp [lookup]
      · simp [lookup, hjk]
    · rename_i hc
      by_cases hjk : j = k
      · subst hjk; simp [lookup, hc, ih hl]
      · by_cases hji : j = i
        · subst hji; simp [lookup, hjk]
        · simp [lookup, hjk, hji, ih hl]

omit [Std.TransOrd κ] in
/-- A map has the value `a` at `k` exactly when `(k, a)` is one of its entries. -/
theorem get?_eq_some_iff {m : SortedMap κ α} {k : κ} {a : α} :
    m.get? k = some a ↔ (k, a) ∈ m.toList := by
  obtain ⟨l, hl⟩ := m
  simp only [get?]
  induction l with
  | nil => simp [lookup]
  | cons e l ih =>
    obtain ⟨j, b⟩ := e
    obtain ⟨hj, hl⟩ := List.pairwise_cons.1 hl
    by_cases hkj : k = j
    · subst hkj
      have : (k, a) ∉ l := fun hm ↦ by simpa using hj _ hm
      simp [lookup, this, eq_comm]
    · simp [lookup, hkj, ih hl]

@[simp] theorem get?_alter [DecidableEq κ] (m : SortedMap κ α) (k j : κ) (f : Option α → α) :
    (m.alter k f).get? j = if j = k then some (f (m.get? k)) else m.get? j :=
  lookup_alterEntries k j f m.sorted

@[simp] theorem get?_insert [DecidableEq κ] (m : SortedMap κ α) (k j : κ) (a : α) :
    (m.insert k a).get? j = if j = k then some a else m.get? j :=
  get?_alter m k j _

/-- Maps that agree at every key are equal. -/
theorem ext_get? {m n : SortedMap κ α} (h : ∀ k, m.get? k = n.get? k) : m = n := by
  obtain ⟨l, hl⟩ := m
  obtain ⟨l', hl'⟩ := n
  have key : ∀ e : κ × α, e ∈ l ↔ e ∈ l' := fun e ↦ by
    have := h e.1
    have h₁ := get?_eq_some_iff (m := ⟨l, hl⟩) (k := e.1) (a := e.2)
    have h₂ := get?_eq_some_iff (m := ⟨l', hl'⟩) (k := e.1) (a := e.2)
    rw [this] at h₁
    exact h₁.symm.trans h₂
  suffices l = l' by subst this; rfl
  clear h
  induction l generalizing l' with
  | nil =>
    cases l' with
    | nil => rfl
    | cons e l' => exact absurd ((key e).2 List.mem_cons_self) (by simp)
  | cons e l ih =>
    obtain ⟨he, hl⟩ := List.pairwise_cons.1 hl
    cases l' with
    | nil => exact absurd ((key e).1 List.mem_cons_self) (by simp)
    | cons e' l' =>
      obtain ⟨he', hl''⟩ := List.pairwise_cons.1 hl'
      have hee : e = e' := by
        rcases List.mem_cons.1 ((key e).1 List.mem_cons_self) with h₁ | h₁
        · exact h₁
        · rcases List.mem_cons.1 ((key e').2 List.mem_cons_self) with h₂ | h₂
          · exact h₂.symm
          · have := Std.TransCmp.lt_trans (he' _ h₁) (he _ h₂)
            simp at this
      subst hee
      congr 1
      refine ih hl _ hl'' fun x ↦ ⟨fun hx ↦ ?_, fun hx ↦ ?_⟩
      · rcases List.mem_cons.1 ((key x).1 (List.mem_cons_of_mem _ hx)) with rfl | h₁
        · have := he _ hx; simp at this
        · exact h₁
      · rcases List.mem_cons.1 ((key x).2 (List.mem_cons_of_mem _ hx)) with rfl | h₁
        · have := he' _ hx; simp at this
        · exact h₁

omit [Std.TransOrd κ] in
theorem get?_filter (m : SortedMap κ α) (p : κ → α → Bool) (k : κ) :
    (m.filter p).get? k = (m.get? k).filter (p k) := by
  cases h : m.get? k with
  | none =>
    refine Option.eq_none_iff_forall_not_mem.2 fun a ha ↦ ?_
    have := (List.mem_filter.1 (get?_eq_some_iff.1 ha)).1
    rw [← get?_eq_some_iff, h] at this
    contradiction
  | some a =>
    by_cases hp : p k a = true
    · simp only [Option.filter, hp, if_true]
      exact get?_eq_some_iff.2 (List.mem_filter.2 ⟨get?_eq_some_iff.1 h, hp⟩)
    · simp only [Option.filter, hp]
      refine Option.eq_none_iff_forall_not_mem.2 fun b hb ↦ ?_
      have hm := List.mem_filter.1 (get?_eq_some_iff.1 hb)
      have hb' := get?_eq_some_iff.2 hm.1
      rw [h] at hb'
      cases hb'
      exact hp hm.2

omit [Std.TransOrd κ] in
theorem get?_erase [DecidableEq κ] (m : SortedMap κ α) (k j : κ) :
    (m.erase k).get? j = if j = k then none else m.get? j := by
  rw [erase, get?_filter]
  by_cases h : j = k
  · subst h; cases m.get? j <;> simp [Option.filter]
  · have : compare k j ≠ .eq := fun hc ↦ h (Std.LawfulEqCmp.compare_eq_iff_eq.1 hc).symm
    cases m.get? j <;> simp [Option.filter, h, this]

end Lookup

theorem lookup_map (f : κ → α → β) (k : κ) [Std.LawfulEqOrd κ] (l : List (κ × α)) :
    lookup k (l.map (fun e ↦ (e.1, f e.1 e.2))) = (lookup k l).map (f k) := by
  induction l with
  | nil => rfl
  | cons e l ih =>
    by_cases h : compare k e.1 = .eq
    · cases Std.LawfulEqCmp.compare_eq_iff_eq.1 h
      simp [lookup]
    · simp [lookup, h, ih]

@[simp] theorem get?_mapValues [Std.LawfulEqOrd κ] (m : SortedMap κ α) (f : κ → α → β) (k : κ) :
    (m.mapValues f).get? k = (m.get? k).map (f k) :=
  lookup_map f k m.toList

end OracleMarkets.SortedMap
