import Mathlib.Data.List.Forall2

/-!
# Computations that may fail

What a computation of several steps gives, in terms of what its steps give.  A list of steps gives
results exactly if every step does, and a failure of a list is a failure of one of its steps.
-/

namespace OracleMarkets

variable {α β ε : Type}

theorem bind_eq_ok {x : Except ε α} {f : α → Except ε β} {b : β} :
    x >>= f = .ok b ↔ ∃ a, x = .ok a ∧ f a = .ok b := by
  cases x <;> simp [bind, Except.bind]

theorem bind_eq_some {x : Option α} {f : α → Option β} {b : β} :
    x >>= f = some b ↔ ∃ a, x = some a ∧ f a = some b :=
  Option.bind_eq_some_iff

theorem bind_eq_error {x : Except ε α} {f : α → Except ε β} {e : ε} :
    x >>= f = .error e ↔ x = .error e ∨ ∃ a, x = .ok a ∧ f a = .error e := by
  cases x <;> simp [bind, Except.bind]

theorem map_eq_bind_pure {x : Except ε α} {f : α → β} : x.map f = x >>= fun a ↦ pure (f a) := by
  cases x <;> rfl

theorem map_eq_ok {x : Except ε α} {f : α → β} {b : β} :
    x.map f = .ok b ↔ ∃ a, x = .ok a ∧ f a = b := by
  cases x <;> simp [Except.map]

theorem mapError_eq_ok {ε' : Type} {x : Except ε α} {f : ε → ε'} {a : α} :
    x.mapError f = .ok a ↔ x = .ok a := by
  cases x <;> simp [Except.mapError]

/-- What follows a check is reached exactly if the check passes. -/
theorem check_bind_eq_ok {x : Except ε Unit} {f : Unit → Except ε β} {b : β} :
    x >>= f = .ok b ↔ x = .ok () ∧ f () = .ok b := by
  rw [bind_eq_ok]
  exact ⟨fun ⟨⟨⟩, h⟩ ↦ h, fun h ↦ ⟨(), h⟩⟩

theorem guard_eq_ok {p : Prop} [Decidable p] {e : ε} {x : PUnit → Except ε β} {b : β} :
    (if p then throw e >>= x else x ⟨⟩) = .ok b ↔ ¬p ∧ x ⟨⟩ = .ok b := by
  by_cases h : p
  · simp [h, bind, Except.bind, throw, throwThe, MonadExceptOf.throw]
  · simp [h]

theorem check_bind_eq_error {x : Except ε Unit} {f : Unit → Except ε β} {e : ε} :
    x >>= f = .error e ↔ x = .error e ∨ (x = .ok () ∧ f () = .error e) := by
  rw [bind_eq_error]
  exact or_congr_right ⟨fun ⟨⟨⟩, hx, hf⟩ ↦ ⟨hx, hf⟩, fun h ↦ ⟨(), h⟩⟩

theorem guard_eq_error {p : Prop} [Decidable p] {e' e : ε} {x : PUnit → Except ε β} :
    (if p then throw e' >>= x else x ⟨⟩) = .error e ↔ (p ∧ e = e') ∨ (¬p ∧ x ⟨⟩ = .error e) := by
  by_cases h : p
  · simp [h, bind, Except.bind, throw, throwThe, MonadExceptOf.throw, eq_comm]
  · simp [h]

/-- Taking the steps of a list gives their results one by one. -/
theorem mapM_eq_ok_iff {f : α → Except ε β} {l : List α} {m : List β} :
    l.mapM f = .ok m ↔ List.Forall₂ (fun a b ↦ f a = .ok b) l m := by
  induction l generalizing m with
  | nil => simp [pure, Except.pure, eq_comm]
  | cons a l ih =>
    simp only [List.mapM_cons, bind_eq_ok, List.forall₂_cons_left_iff, ih]
    constructor
    · rintro ⟨b, hb, m, hm, h⟩
      cases h
      exact ⟨b, m, hb, hm, rfl⟩
    · rintro ⟨b, m, hb, hm, rfl⟩
      exact ⟨b, hb, m, hm, rfl⟩

/-- Steps of which none fails give what they give one by one. -/
theorem mapM_eq_ok_map {f : α → Except ε β} {g : α → β} {l : List α}
    (h : ∀ a ∈ l, f a = .ok (g a)) : l.mapM f = .ok (l.map g) := by
  rw [mapM_eq_ok_iff, List.forall₂_map_right_iff, List.forall₂_same]
  exact h

/-- Steps that fail with a fault, or else give a result, fail with the first fault of a list, or
else give the results one by one. -/
theorem mapM_eq_elim_findSome? {f : α → Except ε β} {fault : α → Option ε} {g : α → β}
    (h : ∀ a, f a = (fault a).elim (.ok (g a)) .error) (l : List α) :
    l.mapM f = (l.findSome? fault).elim (.ok (l.map g)) .error := by
  induction l with
  | nil => rfl
  | cons a l ih =>
    rw [List.mapM_cons, h, ih, List.findSome?_cons]
    cases fault a with
    | some e => rfl
    | none => cases l.findSome? fault <;> rfl

/-- Taking the steps of a list fails only as one of them does. -/
theorem exists_eq_error_of_mapM {f : α → Except ε β} {l : List α} {e : ε}
    (h : l.mapM f = .error e) : ∃ a ∈ l, f a = .error e := by
  induction l with
  | nil => cases h
  | cons a l ih =>
    rw [List.mapM_cons, bind_eq_error] at h
    rcases h with h | ⟨b, -, h⟩
    · exact ⟨a, List.mem_cons_self, h⟩
    · rcases bind_eq_error.1 h with h | ⟨m, -, h⟩
      · obtain ⟨x, hx, hfx⟩ := ih h
        exact ⟨x, List.mem_cons_of_mem _ hx, hfx⟩
      · cases h

/-- Every result of the steps of a list is the result of one of them. -/
theorem exists_mem_of_mapM {f : α → Except ε β} {l : List α} {m : List β} (h : l.mapM f = .ok m)
    {b : β} (hb : b ∈ m) : ∃ a ∈ l, f a = .ok b := by
  induction mapM_eq_ok_iff.1 h with
  | nil => cases hb
  | @cons a b' l m ha hl ih =>
    rcases List.mem_cons.1 hb with rfl | hb
    · exact ⟨a, List.mem_cons_self, ha⟩
    · obtain ⟨x, hx, hfx⟩ := ih (mapM_eq_ok_iff.2 hl) hb
      exact ⟨x, List.mem_cons_of_mem _ hx, hfx⟩

/-- Every step of a list has a result among their results. -/
theorem exists_result_of_mapM {f : α → Except ε β} {l : List α} {m : List β} (h : l.mapM f = .ok m)
    {a : α} (ha : a ∈ l) : ∃ b ∈ m, f a = .ok b := by
  induction mapM_eq_ok_iff.1 h with
  | nil => cases ha
  | @cons a' b l m hb hl ih =>
    rcases List.mem_cons.1 ha with rfl | ha
    · exact ⟨b, List.mem_cons_self, hb⟩
    · obtain ⟨x, hx, hfx⟩ := ih (mapM_eq_ok_iff.2 hl) ha
      exact ⟨x, List.mem_cons_of_mem _ hx, hfx⟩

/-- Every part of a list that is read is read from a part of what is read. -/
theorem exists_mem_of_mapM_eq_some {f : α → Option β} {l : List α} {m : List β}
    (h : l.mapM f = some m) {b : β} (hb : b ∈ m) : ∃ a ∈ l, f a = some b := by
  induction l generalizing m with
  | nil =>
    cases h
    cases hb
  | cons a l ih =>
    simp only [List.mapM_cons, Option.bind_eq_bind, Option.bind_eq_some_iff] at h
    obtain ⟨b', ha, m', hm, h⟩ := h
    cases h
    rcases List.mem_cons.1 hb with rfl | hb
    · exact ⟨a, List.mem_cons_self, ha⟩
    · obtain ⟨x, hx, hfx⟩ := ih hm hb
      exact ⟨x, List.mem_cons_of_mem _ hx, hfx⟩

/-- A list of checks passes if every check does. -/
theorem forM_eq_ok_iff {f : α → Except ε Unit} {l : List α} :
    l.forM f = .ok () ↔ ∀ a ∈ l, f a = .ok () := by
  induction l with
  | nil => simp [pure, Except.pure]
  | cons a l ih =>
    rw [List.forall_mem_cons, ← ih]
    exact check_bind_eq_ok

/-- A list of checks fails only as one of them does. -/
theorem exists_eq_error_of_forM {f : α → Except ε Unit} {l : List α} {e : ε}
    (h : l.forM f = .error e) : ∃ a ∈ l, f a = .error e := by
  induction l with
  | nil => cases h
  | cons a l ih =>
    rcases check_bind_eq_error.1 h with h | ⟨-, h⟩
    · exact ⟨a, List.mem_cons_self, h⟩
    · obtain ⟨x, hx, hfx⟩ := ih h
      exact ⟨x, List.mem_cons_of_mem a hx, hfx⟩

/-- Steps of which none fails do not fail one after another. -/
theorem exists_foldlM_eq_ok {σ : Type} {f : σ → α → Except ε σ} {l : List α}
    (h : ∀ a ∈ l, ∀ s, ∃ t, f s a = .ok t) (s : σ) : ∃ t, l.foldlM f s = .ok t := by
  induction l generalizing s with
  | nil => exact ⟨s, rfl⟩
  | cons a l ih =>
    obtain ⟨t, ht⟩ := h a List.mem_cons_self s
    obtain ⟨u, hu⟩ := ih (fun b hb ↦ h b (List.mem_cons_of_mem a hb)) t
    refine ⟨u, ?_⟩
    rw [List.foldlM_cons, ht]
    exact hu

end OracleMarkets
