import OracleMarkets.SortedMap.Lemmas

/-!
# Maps built from lists

A map that is built by writing the elements of a list one after another holds at each key what the
elements of that key give in their order (`SortedMap.get?_foldl_alter`).  Grouping is the case in
which each element is added to the group of its key: the group of a key is the part of the list with
that key, and all groups together have the elements of the list.
-/

namespace OracleMarkets.SortedMap

variable {κ α β : Type} [Ord κ]

theorem mem_keys_iff {m : SortedMap κ α} {k : κ} : k ∈ m.keys ↔ ∃ a, (k, a) ∈ m.toList := by
  simp [keys]

/-- The values are gone through as the entries are. -/
theorem flatMap_values (m : SortedMap κ α) (f : α → List β) :
    m.values.flatMap f = m.toList.flatMap fun e ↦ f e.2 := by
  rw [values, List.flatMap_map]

section Lawful

variable [Std.TransOrd κ] [Std.LawfulEqOrd κ]

omit [Std.TransOrd κ] in
theorem contains_iff_mem_keys {m : SortedMap κ α} {k : κ} :
    m.contains k = true ↔ k ∈ m.keys := by
  rw [contains, Option.isSome_iff_exists, mem_keys_iff]
  simp only [get?_eq_some_iff]

omit [Std.TransOrd κ] [Std.LawfulEqOrd κ] in
theorem contains_eq_false_iff {m : SortedMap κ α} {k : κ} :
    m.contains k = false ↔ m.get? k = none := by
  rw [contains, Option.isSome_eq_false_iff, Option.isNone_iff_eq_none]

omit [Std.TransOrd κ] in
theorem mem_keys_filter {m : SortedMap κ α} {p : κ → α → Bool} {k : κ} :
    k ∈ (m.filter p).keys ↔ ∃ a, m.get? k = some a ∧ p k a = true := by
  rw [mem_keys_iff]
  simp only [filter, List.mem_filter, get?_eq_some_iff]

omit [Std.TransOrd κ] in
/-- No key stands twice among the entries. -/
theorem pairwise_toList_ne (m : SortedMap κ α) : m.toList.Pairwise fun a b ↦ a.1 ≠ b.1 := by
  refine m.sorted.imp fun {a b} h heq ↦ ?_
  rw [heq] at h
  simp at h

omit [Std.TransOrd κ] in
/-- The only entry of a key is the one with its value. -/
theorem filter_toList_eq [DecidableEq κ] (m : SortedMap κ α) (k : κ) :
    (m.toList.filter fun e ↦ e.1 = k) = ((m.get? k).map (k, ·)).toList := by
  have hne := m.pairwise_toList_ne
  rw [get?]
  generalize m.toList = entries at hne
  induction entries with
  | nil => rfl
  | cons e l ih =>
    obtain ⟨j, a⟩ := e
    obtain ⟨hj, hl⟩ := List.pairwise_cons.1 hne
    by_cases hjk : j = k
    · subst hjk
      have hnil : (l.filter fun e ↦ e.1 = j) = [] :=
        List.filter_eq_nil_iff.2 fun e he ↦ by simpa using (hj e he).symm
      simp [lookup, hnil]
    · simp [lookup, hjk, Ne.symm hjk, ih hl]

omit [Std.TransOrd κ] in
/-- What stands before and after the entry of a key. -/
theorem exists_toList_eq_append {m : SortedMap κ α} {k : κ} {a : α} (h : m.get? k = some a) :
    ∃ before after, m.toList = before ++ (k, a) :: after ∧
      (∀ e ∈ before, compare e.1 k = .lt) ∧ ∀ e ∈ after, compare k e.1 = .lt := by
  obtain ⟨before, after, hm⟩ := List.append_of_mem (get?_eq_some_iff.1 h)
  have hsorted := m.sorted
  rw [hm, List.pairwise_append, List.pairwise_cons] at hsorted
  exact ⟨before, after, hm, fun e he ↦ hsorted.2.2 e he _ List.mem_cons_self, hsorted.2.1.1⟩

/-- Of the keys whose values have a property, one is the least. -/
theorem exists_least {m : SortedMap κ α} {P : α → Prop} {k : κ} {a : α} (h : m.get? k = some a)
    (ha : P a) :
    ∃ k₀ a₀, m.get? k₀ = some a₀ ∧ P a₀ ∧
      ∀ j b, m.get? j = some b → P b → compare j k₀ ≠ .lt := by
  classical
  have hsome : (m.toList.find? fun e ↦ P e.2).isSome := by
    rw [List.find?_isSome]
    exact ⟨(k, a), get?_eq_some_iff.1 h, decide_eq_true ha⟩
  obtain ⟨⟨k₀, a₀⟩, hfind⟩ := Option.isSome_iff_exists.1 hsome
  obtain ⟨ha₀, before, after, hm, hbefore⟩ := List.find?_eq_some_iff_append.1 hfind
  have hmem : (k₀, a₀) ∈ m.toList := List.mem_of_find?_eq_some hfind
  refine ⟨k₀, a₀, get?_eq_some_iff.2 hmem, of_decide_eq_true ha₀, fun j b hj hb hlt ↦ ?_⟩
  have hsorted := m.sorted
  have hj := get?_eq_some_iff.1 hj
  rw [hm, List.mem_append, List.mem_cons] at hj
  rw [hm, List.pairwise_append, List.pairwise_cons] at hsorted
  rcases hj with hj | hj | hj
  · simpa [hb] using hbefore _ hj
  · cases hj
    simp at hlt
  · have hcycle := Std.TransCmp.lt_trans hlt (hsorted.2.1.1 _ hj)
    simp at hcycle

/-- A new entry adds one to the size. -/
theorem size_insert [DecidableEq κ] {m : SortedMap κ α} {k : κ} (h : m.get? k = none) (a : α) :
    (m.insert k a).size = m.size + 1 := by
  have run : ∀ entries : List (κ × α), lookup k entries = none →
      (alterEntries k (fun _ ↦ a) entries).length = entries.length + 1 := by
    intro entries
    induction entries with
    | nil => exact fun _ ↦ rfl
    | cons e l ih =>
      intro hnone
      unfold alterEntries
      split
      · rfl
      · next heq => simp [lookup, heq] at hnone
      · next hgt => simpa using ih (by simpa [lookup, hgt] using hnone)
  exact run m.toList h

/-! ## Writing the elements of a list -/

/-- What the elements of a list leave at a key. -/
theorem get?_foldl_alter [DecidableEq κ] (key : α → κ) (step : α → Option β → β) (l : List α)
    (m : SortedMap κ β) (k : κ) :
    (l.foldl (fun m a ↦ m.alter (key a) (step a)) m).get? k =
      (l.filter fun a ↦ key a = k).foldl (fun o a ↦ some (step a o)) (m.get? k) := by
  induction l generalizing m with
  | nil => rfl
  | cons a l ih =>
    rw [List.foldl_cons, ih, get?_alter]
    by_cases h : key a = k
    · simp [h]
    · simp [h, Ne.symm h]

/-- Every entry of the map of a list is one of the list. -/
theorem mem_of_mem_ofList [DecidableEq κ] {l : List (κ × α)} {e : κ × α}
    (h : e ∈ (ofList l).toList) : e ∈ l := by
  obtain ⟨k, a⟩ := e
  have key : ∀ (l : List (κ × α)) (m : SortedMap κ α),
      (l.foldl (fun m e ↦ m.insert e.1 e.2) m).get? k = some a →
        (k, a) ∈ l ∨ m.get? k = some a := by
    intro l
    induction l with
    | nil => exact fun m hm ↦ .inr hm
    | cons e l ih =>
      intro m hm
      rcases ih _ hm with hl | hm
      · exact .inl (List.mem_cons_of_mem _ hl)
      · rw [get?_insert] at hm
        split at hm
        · next hk =>
          cases hm
          exact .inl (hk ▸ List.mem_cons_self)
        · exact .inr hm
  rcases key l ∅ (get?_eq_some_iff.2 h) with h | h
  · exact h
  · cases h

/-! ## Groups -/

theorem foldl_append_some (l g : List α) :
    l.foldl (fun o a ↦ some (Option.getD o [] ++ [a])) (some g) = some (g ++ l) := by
  induction l generalizing g with
  | nil => simp
  | cons a l ih => simp [ih]

/-- The group of a key holds the elements of that key in the order of the list. -/
theorem get?_groupBy [DecidableEq κ] (key : α → κ) (l : List α) (k : κ) :
    (groupBy key l).get? k =
      if (l.filter fun a ↦ key a = k) = [] then none else some (l.filter fun a ↦ key a = k) := by
  rw [groupBy, get?_foldl_alter]
  cases l.filter fun a ↦ key a = k with
  | nil => rfl
  | cons a g => simp [foldl_append_some]

/-- A group is made of the elements with its key, of which there is one at least. -/
theorem mem_toList_groupBy [DecidableEq κ] {key : α → κ} {l : List α} {k : κ} {g : List α} :
    (k, g) ∈ (groupBy key l).toList ↔ g = l.filter (fun a ↦ key a = k) ∧ g ≠ [] := by
  rw [← get?_eq_some_iff, get?_groupBy]
  constructor
  · intro h
    split at h
    · cases h
    · next hne =>
      cases h
      exact ⟨rfl, hne⟩
  · rintro ⟨rfl, hne⟩
    rw [if_neg hne]

/-- The elements of a group have its key. -/
theorem key_of_mem_groupBy [DecidableEq κ] {key : α → κ} {l g : List α} {k : κ}
    (h : (k, g) ∈ (groupBy key l).toList) {a : α} (ha : a ∈ g) : key a = k := by
  rw [(mem_toList_groupBy.1 h).1] at ha
  exact of_decide_eq_true (List.mem_filter.1 ha).2

theorem get?_groupBy_of_mem [DecidableEq κ] {key : α → κ} {l : List α} {a : α} (h : a ∈ l) :
    (groupBy key l).get? (key a) = some (l.filter fun b ↦ key b = key a) := by
  rw [get?_groupBy, if_neg]
  exact List.ne_nil_of_mem (List.mem_filter.2 ⟨h, by simp⟩)

/-- The elements of a list are those of its groups. -/
theorem mem_iff_mem_groupBy [DecidableEq κ] {key : α → κ} {l : List α} {a : α} :
    a ∈ l ↔ ∃ e ∈ (groupBy key l).toList, a ∈ e.2 := by
  constructor
  · intro h
    exact ⟨_, get?_eq_some_iff.1 (get?_groupBy_of_mem h), List.mem_filter.2 ⟨h, by simp⟩⟩
  · rintro ⟨⟨k, g⟩, he, ha⟩
    rw [(mem_toList_groupBy.1 he).1] at ha
    exact (List.mem_filter.1 ha).1

omit [Std.TransOrd κ] [Std.LawfulEqOrd κ] in
theorem flatten_alterEntries_perm (k : κ) (l : List α) (entries : List (κ × List α)) :
    ((alterEntries k (fun g ↦ g.getD [] ++ l) entries).map (·.2)).flatten.Perm
      ((entries.map (·.2)).flatten ++ l) := by
  induction entries with
  | nil => simp [alterEntries]
  | cons e entries ih =>
    obtain ⟨j, g⟩ := e
    unfold alterEntries
    split
    · simpa using @List.perm_append_comm _ l (g ++ (entries.map (·.2)).flatten)
    · simpa using List.perm_append_comm.append_left g
    · simpa using ih.append_left g

/-- All groups together have the elements of the list, each as often as the list. -/
theorem flatten_values_groupBy_perm (key : α → κ) (l : List α) :
    (groupBy key l).values.flatten.Perm l := by
  have run : ∀ (l : List α) (m : SortedMap κ (List α)),
      (l.foldl (fun m a ↦ m.alter (key a) fun g ↦ g.getD [] ++ [a]) m).values.flatten.Perm
        (m.values.flatten ++ l) := by
    intro l
    induction l with
    | nil => intro m; simp
    | cons a l ih =>
      intro m
      have step : (m.alter (key a) fun g ↦ g.getD [] ++ [a]).values.flatten.Perm
          (m.values.flatten ++ [a]) := flatten_alterEntries_perm (key a) [a] m.toList
      rw [List.append_cons]
      exact (ih _).trans (step.append_right l)
  exact run l ∅

end Lawful

end OracleMarkets.SortedMap
