import OracleMarkets.Document.Decode
import OracleMarkets.Proofs.Double
import OracleMarkets.Proofs.Except
import OracleMarkets.Proofs.Json
import OracleMarkets.Proofs.SortedMap

/-!
# What is read

What is read of a value is made of what is read of its parts.  So a property of what is read of a
list, a map or the fields of a structure follows from one of what is read of the parts (`Yields`),
where the parts may be known to have a property that the value has (`Hereditary`).  The doubles that
are read of a value of finite numbers are finite (`yields_amount`).
-/

namespace OracleMarkets

/-- The values that a value is made of. -/
def Value.parts : Value → List Value
  | .list items => items
  | .record fields => fields.map (·.2)
  | _ => []

/-- A property that the parts of a value have if the value has it. -/
def Hereditary (H : Value → Prop) : Prop := ∀ v, H v → ∀ w ∈ v.parts, H w

/-- Whatever is read of a value with the property `H` has the property `P`. -/
def Yields {α : Type} (H : Value → Prop) (read : Value → Option α) (P : α → Prop) : Prop :=
  ∀ v a, H v → read v = some a → P a

theorem hereditary_true : Hereditary fun _ ↦ True := fun _ _ _ _ ↦ trivial

namespace Hereditary

variable {H : Value → Prop} (hH : Hereditary H)

include hH

theorem of_mem_list {items : List Value} (h : H (.list items)) : ∀ v ∈ items, H v := hH _ h

theorem of_mem_record {entries : List (Key × Value)} (h : H (.record entries)) :
    ∀ e ∈ entries, H e.2 :=
  fun _ he ↦ hH _ h _ (List.mem_map_of_mem he)

theorem of_mem_entries {v : Value} {entries : List (Key × Value)} (hv : H v)
    (h : v.entries? = some entries) : ∀ e ∈ entries, H e.2 := by
  cases v with
  | record fields =>
    cases h
    exact hH.of_mem_record hv
  | _ => cases h

omit hH in
theorem of_mem_ofEntries {names : List String} {entries : List (Key × Value)} {fs : Fields}
    (hentries : ∀ e ∈ entries, H e.2) (h : Fields.ofEntries? names entries = some fs) :
    ∀ f ∈ fs, H f.2 := by
  unfold Fields.ofEntries? at h
  dsimp only at h
  split at h
  · cases h
    intro f hf
    obtain ⟨e, he, rfl⟩ := List.mem_map.1 (List.mem_of_mem_filter hf)
    exact hentries e he
  · cases h

/-- The fields of a structure are parts of the value that it is read from. -/
theorem of_mem_fields {names : List String} {v : Value} {fs : Fields} (hv : H v)
    (h : v.fields? names = some fs) : ∀ f ∈ fs, H f.2 := by
  unfold Value.fields? at h
  split at h
  · next items =>
    split at h
    · cases h
      exact fun f hf ↦ hH.of_mem_list hv f.2 (List.of_mem_zip hf).2
    · cases h
  · obtain ⟨entries, hentries, h⟩ := Option.bind_eq_some_iff.1 h
    exact of_mem_ofEntries (hH.of_mem_entries hv hentries) h

end Hereditary

namespace Yields

variable {α : Type} {H : Value → Prop} {read : Value → Option α} {P : α → Prop}

/-- What is read of a field that has to be there. -/
theorem required (h : Yields H read P) {fs : Fields} (hfs : ∀ f ∈ fs, H f.2) {name : String} {a : α}
    (ha : fs.required name read = some a) : P a := by
  obtain ⟨v, hv, ha⟩ := Option.bind_eq_some_iff.1 ha
  obtain ⟨f, hf, rfl⟩ := Option.map_eq_some_iff.1 hv
  exact h f.2 a (hfs f (List.mem_of_find?_eq_some hf)) ha

/-- What is read of a field that may be missing. -/
theorem withDefault (h : Yields H read P) {fs : Fields} (hfs : ∀ f ∈ fs, H f.2) {name : String}
    {d a : α} (ha : fs.withDefault name d read = some a) (hd : P d) : P a := by
  unfold Fields.withDefault at ha
  split at ha
  · next v hv =>
    obtain ⟨f, hf, rfl⟩ := Option.map_eq_some_iff.1 hv
    exact h f.2 a (hfs f (List.mem_of_find?_eq_some hf)) ha
  · cases ha
    exact hd

theorem option (h : Yields H read P) :
    Yields H (Value.option? read) fun o ↦ ∀ a, o = some a → P a := by
  intro v o hv ho a hoa
  subst hoa
  unfold Value.option? at ho
  split at ho
  · cases ho
  · obtain ⟨b, hb, hba⟩ := Option.map_eq_some_iff.1 ho
    cases hba
    exact h v a hv hb

theorem list (h : Yields H read P) (hH : Hereditary H) :
    Yields H (Value.list? read) fun l ↦ ∀ a ∈ l, P a := by
  intro v l hv hl a ha
  obtain ⟨items, hitems, hl⟩ := Option.bind_eq_some_iff.1 hl
  obtain ⟨w, hw, hwa⟩ := exists_mem_of_mapM_eq_some hl ha
  cases v with
  | list items' =>
    cases hitems
    exact h w a (hH.of_mem_list hv w hw) hwa
  | _ => cases hitems

/-- A map that is read has the property at each of its keys. -/
theorem map (h : Yields H read P) (hH : Hereditary H) :
    Yields H (Value.map? read) fun m ↦ ∀ k a, m.get? k = some a → P a := by
  intro v m hv hm k a ha
  simp only [Value.map?, Option.bind_eq_bind, Option.bind_eq_some_iff] at hm
  obtain ⟨entries, hentries, pairs, hread, hm⟩ := hm
  cases hm
  have hmem := SortedMap.mem_of_mem_ofList (SortedMap.get?_eq_some_iff.1 ha)
  obtain ⟨e, he, hea⟩ := exists_mem_of_mapM_eq_some hread hmem
  obtain ⟨b, hb, hba⟩ := Option.map_eq_some_iff.1 hea
  cases hba
  exact h e.2 _ (hH.of_mem_entries hv hentries e he) hb

end Yields

/-! ## Finite numbers -/

namespace Value

/-- Each number in the value is a finite double or an integer of 64 bits. -/
inductive IsFinite : Value → Prop
  | null : IsFinite .null
  | bool (b : Bool) : IsFinite (.bool b)
  | int {n : Int} (h : -2 ^ 63 ≤ n ∧ n < 2 ^ 64) : IsFinite (.number (.int n))
  | float {x : Float} (h : x.isFinite = true) : IsFinite (.number (.float x))
  | text (s : String) : IsFinite (.text s)
  | list {items : List Value} (h : ∀ v ∈ items, IsFinite v) : IsFinite (.list items)
  | record {fields : List (Key × Value)} (h : ∀ f ∈ fields, IsFinite f.2) :
    IsFinite (.record fields)
  | unreadable : IsFinite .unreadable

/-- A value that can be written as a text without a point has finite numbers. -/
theorem IsFinite.of_writable {d : Nat} {v : Value} (h : v.Writable d) : v.IsFinite := by
  induction h with
  | null => exact .null
  | bool b => exact .bool b
  | int h => exact .int h
  | text s => exact .text s
  | list _ ih => exact .list ih
  | record _ ih => exact .record ih

theorem hereditary_isFinite : Hereditary IsFinite := by
  intro v hv w hw
  cases hv with
  | list h => exact h w hw
  | record h =>
    obtain ⟨f, hf, rfl⟩ := List.mem_map.1 hw
    exact h f hf
  | _ => cases hw

end Value

/-- The doubles of finite numbers are finite. -/
theorem yields_amount : Yields Value.IsFinite Value.amount? fun x ↦ x.isFinite = true := by
  intro v x hv hx
  cases hv with
  | int h =>
    cases hx
    exact Double.isFinite_ofInt h.1 h.2
  | float h =>
    cases hx
    exact h
  | _ => cases hx

/-- The default of a double is finite. -/
theorem isFinite_zero : (0.0 : Float).isFinite = true := by decide +kernel

end OracleMarkets
