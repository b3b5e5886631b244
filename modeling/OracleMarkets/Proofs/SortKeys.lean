import Mathlib.Data.List.Perm.Basic
import OracleMarkets.Document.Value

/-!
# Values with sorted names

Sorting the names of fields permutes the fields of a record if no name stands twice
(`Value.sortKeysFields_perm`), and it does nothing to a value that is sorted already
(`Value.sortKeys_sortKeys`).
-/

namespace OracleMarkets.Value

theorem sortKeysList_eq_map (items : List Value) : sortKeysList items = items.map sortKeys := by
  induction items with
  | nil => rfl
  | cons v items ih => rw [sortKeysList, ih, List.map_cons]

/-! ## Sorting permutes -/

/-- A field of a new name is added. -/
theorem insertField_perm {k : Key} {v : Value} {acc : List (Key × Value)}
    (h : ∀ f ∈ acc, k.text ≠ f.1.text) : (insertField k v acc).Perm ((k, v) :: acc) := by
  induction acc with
  | nil => exact .refl _
  | cons f acc ih =>
    obtain ⟨j, w⟩ := f
    obtain ⟨hj, hacc⟩ := List.forall_mem_cons.1 h
    unfold insertField
    split
    · exact .refl _
    · next heq => exact absurd (Std.LawfulEqCmp.eq_of_compare heq) hj
    · exact ((ih hacc).cons (j, w)).trans (.swap (k, v) (j, w) acc)

/-- Fields of distinct names, none of them among those of `acc`, are all added. -/
theorem sortKeysFields_perm {fields acc : List (Key × Value)}
    (h : fields.Pairwise fun f g ↦ f.1.text ≠ g.1.text)
    (hacc : ∀ f ∈ fields, ∀ g ∈ acc, f.1.text ≠ g.1.text) :
    (sortKeysFields fields acc).Perm (fields.map (fun f ↦ (f.1, f.2.sortKeys)) ++ acc) := by
  induction fields generalizing acc with
  | nil => exact .refl _
  | cons f fields ih =>
    obtain ⟨k, v⟩ := f
    obtain ⟨hk, hfields⟩ := List.pairwise_cons.1 h
    obtain ⟨hkacc, hrest⟩ := List.forall_mem_cons.1 hacc
    have hinsert := insertField_perm (v := v.sortKeys) hkacc
    rw [sortKeysFields, List.map_cons, List.cons_append]
    refine (ih hfields fun f hf g hg ↦ ?_).trans ((hinsert.append_left _).trans List.perm_middle)
    rcases List.mem_cons.1 (hinsert.mem_iff.1 hg) with rfl | hg
    · exact (hk f hf).symm
    · exact hrest f hf g hg

/-! ## Sorting twice -/

/-- The names of the fields ascend. -/
def Ascending (fields : List (Key × Value)) : Prop :=
  fields.Pairwise fun f g ↦ compare f.1.text g.1.text = .lt

theorem eq_or_mem_of_mem_insertField {k : Key} {v : Value} {acc : List (Key × Value)}
    {f : Key × Value} (h : f ∈ insertField k v acc) : f = (k, v) ∨ f ∈ acc := by
  induction acc with
  | nil => exact .inl (List.mem_singleton.1 h)
  | cons g acc ih =>
    obtain ⟨j, w⟩ := g
    unfold insertField at h
    split at h
    · exact List.mem_cons.1 h
    · exact (List.mem_cons.1 h).imp_right (List.mem_cons_of_mem _)
    · rcases List.mem_cons.1 h with rfl | h
      · exact .inr List.mem_cons_self
      · exact (ih h).imp_right (List.mem_cons_of_mem _)

theorem ascending_insertField {acc : List (Key × Value)} (h : Ascending acc) (k : Key) (v : Value) :
    Ascending (insertField k v acc) := by
  induction acc with
  | nil => exact List.pairwise_singleton _ _
  | cons g acc ih =>
    obtain ⟨j, w⟩ := g
    obtain ⟨hj, hacc⟩ := List.pairwise_cons.1 h
    unfold insertField
    split
    · next hlt =>
      refine List.pairwise_cons.2 ⟨fun f hf ↦ ?_, h⟩
      rcases List.mem_cons.1 hf with rfl | hf
      · exact hlt
      · exact Std.TransCmp.lt_trans hlt (hj f hf)
    · next heq =>
      have heq : k.text = j.text := Std.LawfulEqCmp.eq_of_compare heq
      refine List.pairwise_cons.2 ⟨fun f hf ↦ ?_, hacc⟩
      rw [heq]
      exact hj f hf
    · next hgt =>
      refine List.pairwise_cons.2 ⟨fun f hf ↦ ?_, ih hacc⟩
      rcases eq_or_mem_of_mem_insertField hf with rfl | hf
      · exact Std.OrientedCmp.gt_iff_lt.1 hgt
      · exact hj f hf

/-- Sorted fields ascend by their names. -/
theorem ascending_sortKeysFields (fields : List (Key × Value)) {acc : List (Key × Value)}
    (h : Ascending acc) : Ascending (sortKeysFields fields acc) := by
  induction fields generalizing acc with
  | nil => exact h
  | cons f fields ih => exact ih (ascending_insertField h f.1 f.2.sortKeys)

/-- A field whose name comes after all others is added at the end. -/
theorem insertField_of_forall_lt {k : Key} {v : Value} {acc : List (Key × Value)}
    (h : ∀ f ∈ acc, compare f.1.text k.text = .lt) : insertField k v acc = acc ++ [(k, v)] := by
  induction acc with
  | nil => rfl
  | cons g acc ih =>
    obtain ⟨j, w⟩ := g
    obtain ⟨hj, hacc⟩ := List.forall_mem_cons.1 h
    have hgt : compare k.text j.text = .gt := Std.OrientedCmp.gt_iff_lt.2 hj
    rw [insertField, hgt, List.cons_append, ih hacc]

/-- Ascending fields of sorted values stay as they are. -/
theorem sortKeysFields_eq_append {fields acc : List (Key × Value)} (h : Ascending (acc ++ fields))
    (hfields : ∀ f ∈ fields, f.2.sortKeys = f.2) : sortKeysFields fields acc = acc ++ fields := by
  induction fields generalizing acc with
  | nil => exact (List.append_nil acc).symm
  | cons f fields ih =>
    obtain ⟨k, v⟩ := f
    obtain ⟨hv, hrest⟩ := List.forall_mem_cons.1 hfields
    have hlt : ∀ g ∈ acc, compare g.1.text k.text = .lt := fun g hg ↦
      (List.pairwise_append.1 h).2.2 g hg (k, v) List.mem_cons_self
    rw [sortKeysFields, hv, insertField_of_forall_lt hlt, ih ?_ hrest, List.append_assoc,
      List.singleton_append]
    rwa [List.append_assoc, List.singleton_append]

mutual

/-- Sorting the names of a sorted value changes nothing. -/
theorem sortKeys_sortKeys : ∀ v : Value, v.sortKeys.sortKeys = v.sortKeys
  | .list items => by
    rw [sortKeys, sortKeys, sortKeysList_eq_map items, sortKeysList_eq_map, List.map_map]
    exact congrArg Value.list (List.map_congr_left (sortKeys_sortKeys_of_mem items))
  | .record fields => by
    rw [sortKeys, sortKeys]
    have hsorted : Ascending ([] ++ sortKeysFields fields []) :=
      ascending_sortKeysFields fields .nil
    rw [sortKeysFields_eq_append hsorted (sortKeys_of_mem_fields fields (List.forall_mem_nil _)),
      List.nil_append]
  | .null | .bool _ | .number _ | .text _ | .unreadable => rfl

theorem sortKeys_sortKeys_of_mem :
    ∀ items : List Value, ∀ v ∈ items, (sortKeys ∘ sortKeys) v = v.sortKeys
  | [] => List.forall_mem_nil _
  | v :: items => List.forall_mem_cons.2 ⟨sortKeys_sortKeys v, sortKeys_sortKeys_of_mem items⟩

theorem sortKeys_of_mem_fields : ∀ (fields : List (Key × Value)) {acc : List (Key × Value)},
    (∀ f ∈ acc, f.2.sortKeys = f.2) → ∀ f ∈ sortKeysFields fields acc, f.2.sortKeys = f.2
  | [], _, hacc => hacc
  | (k, v) :: fields, acc, hacc => by
    refine sortKeys_of_mem_fields fields fun f hf ↦ ?_
    rcases eq_or_mem_of_mem_insertField hf with rfl | hf
    · exact sortKeys_sortKeys v
    · exact hacc f hf

end

end OracleMarkets.Value
