import Mathlib.Data.UInt
import OracleMarkets.Document.Decode
import OracleMarkets.Proofs.Json
import OracleMarkets.Proofs.SortKeys
import OracleMarkets.Proofs.SortedMap

/-!
# Rearranged values

A value may be written anew with the fields of its records in another order, or with names that are
written in another way.  What is read from it stays the same: this file has a lemma for each reader
of numbers, texts, lists and maps, and one for the fields of structures
(`Rearrangement.bind_fields?`).  The rearrangements of interest are none (`Rearrangement.refl`),
sorting the names (`Rearrangement.sortKeys`), and what a text makes of a value
(`Rearrangement.reread`).
-/

namespace OracleMarkets

@[simp] theorem Key.text_reread (k : Key) : k.reread.text = k.text := by
  unfold Key.reread
  split <;> rfl

namespace Value

theorem rereadItems_eq_map (items : List Value) : rereadItems items = items.map reread := by
  induction items with
  | nil => rfl
  | cons v items ih => rw [rereadItems, ih, List.map_cons]

theorem rereadFields_eq_map (fields : List (Key × Value)) :
    rereadFields fields = fields.map fun f ↦ (f.1.reread, f.2.reread) := by
  induction fields with
  | nil => rfl
  | cons f fields ih => rw [rereadFields, ih, List.map_cons]

/-- The fields of a record can be read if the value of each can. -/
theorem areFieldsReadable_iff {fields : List (Key × Value)} :
    areFieldsReadable fields = true ↔ ∀ f ∈ fields, f.2.isReadable = true := by
  induction fields with
  | nil => exact iff_of_true rfl nofun
  | cons f fields ih => rw [areFieldsReadable, Bool.and_eq_true, ih, List.forall_mem_cons]

/-- A field of a record is found among its fields from the last one on. -/
theorem field?_record (entries : List (Key × Value)) (name : String) :
    (record entries).field? name =
      Fields.get? (entries.reverse.map fun e ↦ (e.1.text, e.2)) name := by
  rw [field?, Fields.get?, List.find?_map, Option.map_map]
  rfl

theorem count?_count (n : UInt64) : count? (count n) = some n := by
  have hbound : (0 : Int) ≤ n.toNat ∧ (n.toNat : Int) < 0x10000000000000000 := by
    have := n.toNat_lt
    omega
  show countOfInt? n.toNat = some n
  rw [countOfInt?, if_pos hbound, Int.toNat_natCast, UInt64.ofNat_toNat]

/-- A value that is read as something stands for it where there may be nothing. -/
theorem option?_eq_some {α : Type} {read : Value → Option α} {v : Value} {a : α}
    (h : read v = some a) (hnull : read .null = none) : option? read v = some (some a) := by
  have hne : ¬v.isAbsent = true := by
    intro habsent
    cases v with
    | null => exact absurd h (by rw [hnull]; nofun)
    | _ => cases habsent
  rw [option?, if_neg hne, h, Option.map_some]

end Value

/-! ## Lists that are read one by one -/

/-- What is written one by one is read back one by one. -/
theorem mapM_map_eq_some {α β : Type} {read : β → Option α} {write : α → β} {l : List α}
    (h : ∀ a ∈ l, read (write a) = some a) : (l.map write).mapM read = some l := by
  induction l with
  | nil => rfl
  | cons a l ih =>
    obtain ⟨ha, hl⟩ := List.forall_mem_cons.1 h
    rw [List.map_cons, List.mapM_cons, ha, ih hl]
    rfl

/-- A list in another order is read as what the list is read as, in another order. -/
theorem exists_mapM_of_perm {α β : Type} {f : α → Option β} {l l' : List α} (h : l.Perm l')
    {m : List β} (hm : l.mapM f = some m) : ∃ m', l'.mapM f = some m' ∧ m'.Perm m := by
  induction h generalizing m with
  | nil => exact ⟨m, hm, .refl m⟩
  | cons a h ih =>
    simp only [List.mapM_cons, Option.bind_eq_bind, Option.bind_eq_some_iff] at hm ⊢
    obtain ⟨b, hb, n, hn, hm⟩ := hm
    cases hm
    obtain ⟨n', hn', hperm⟩ := ih hn
    exact ⟨b :: n', ⟨b, hb, n', hn', rfl⟩, hperm.cons b⟩
  | swap a a' l =>
    simp only [List.mapM_cons, Option.bind_eq_bind, Option.bind_eq_some_iff] at hm ⊢
    obtain ⟨b', hb', n, ⟨b, hb, n, hn, hcons⟩, hm⟩ := hm
    cases hcons
    cases hm
    exact ⟨b :: b' :: n, ⟨b, hb, b' :: n, ⟨b', hb', n, hn, rfl⟩, rfl⟩, .swap b' b n⟩
  | trans h₁ h₂ ih₁ ih₂ =>
    obtain ⟨m₁, hm₁, hperm₁⟩ := ih₁ hm
    obtain ⟨m₂, hm₂, hperm₂⟩ := ih₂ hm₁
    exact ⟨m₂, hm₂, hperm₂.trans hperm₁⟩

/-- The entries of a map make the map in any order. -/
theorem SortedMap.ofList_eq_of_perm {κ α : Type} [Ord κ] [Std.TransOrd κ] [Std.LawfulEqOrd κ]
    [DecidableEq κ] {m : SortedMap κ α} {l : List (κ × α)} (h : l.Perm m.toList) :
    ofList l = m := by
  apply ext_get?
  intro k
  have hfold : (ofList l).get? k =
      (l.filter fun e ↦ e.1 = k).foldl (fun _ e ↦ some e.2) none :=
    get?_foldl_alter (fun e : κ × α ↦ e.1) (fun e _ ↦ e.2) l ∅ k
  have hfilter := h.filter fun e ↦ e.1 = k
  rw [filter_toList_eq] at hfilter
  rw [hfold]
  cases hk : m.get? k with
  | none =>
    rw [hk] at hfilter
    rw [List.perm_nil.1 hfilter]
    rfl
  | some a =>
    rw [hk] at hfilter
    rw [List.perm_singleton.1 hfilter]
    rfl

/-! ## Fields -/

namespace Fields

variable (name j : String) (v : Value) (fs : Fields)

theorem get?_cons : get? ((name, v) :: fs) j = if name = j then some v else fs.get? j := by
  unfold get?
  by_cases h : name = j
  · simp [h]
  · simp [h]

theorem get?_map (f : Value → Value) :
    get? (fs.map fun e ↦ (e.1, f e.2)) j = (fs.get? j).map f := by
  induction fs with
  | nil => rfl
  | cons e fs ih =>
    rw [List.map_cons, get?_cons, ih, get?_cons]
    split <;> rfl

/-- Fields of distinct names are found by membership. -/
theorem get?_eq_some_iff {fs : Fields} (h : (fs.map Prod.fst).Nodup) {name : String} {v : Value} :
    fs.get? name = some v ↔ (name, v) ∈ fs := by
  induction fs with
  | nil => exact iff_of_false nofun (List.not_mem_nil)
  | cons e fs ih =>
    obtain ⟨j, w⟩ := e
    rw [List.map_cons, List.nodup_cons] at h
    rw [get?_cons, List.mem_cons]
    split
    · next heq =>
      subst heq
      refine ⟨fun hv ↦ .inl (Option.some.inj hv ▸ rfl), fun hv ↦ ?_⟩
      rcases hv with hv | hv
      · exact congrArg some (Prod.mk.inj hv).2.symm
      · exact absurd (List.mem_map_of_mem hv) h.1
    · next hne =>
      rw [ih h.2]
      refine ⟨.inr, fun hv ↦ hv.resolve_left fun heq ↦ hne (Prod.mk.inj heq).1.symm⟩

/-- Fields of distinct names are found in any order. -/
theorem get?_eq_of_perm {fs fs' : Fields} (h : fs.Perm fs') (hnodup : (fs'.map Prod.fst).Nodup)
    (name : String) : fs.get? name = fs'.get? name := by
  ext v
  rw [get?_eq_some_iff ((h.map Prod.fst).nodup_iff.2 hnodup), get?_eq_some_iff hnodup, h.mem_iff]

section

variable {α β : Type} {fs : Fields} {name : String} {v : Value} {read : Value → Option α} {a : α}

theorem bind_required (hv : fs.get? name = some v) (ha : read v = some a) (k : α → Option β) :
    fs.required name read >>= k = k a := by
  rw [required, hv, Option.bind_some, ha]
  rfl

theorem bind_withDefault {d : α} (hv : fs.get? name = some v) (ha : read v = some a)
    (k : α → Option β) : fs.withDefault name d read >>= k = k a := by
  rw [withDefault, hv]
  dsimp only
  rw [ha]
  rfl

theorem bind_missing {d : α} (h : fs.get? name = none) (k : α → Option β) :
    fs.withDefault name d read >>= k = k d := by
  rw [withDefault, h]
  rfl

end

end Fields

/-! ## Rearrangements -/

/-- A way to write values anew: texts and numbers stay, and the fields of a record may change their
order, and their names how they are written. -/
structure Rearrangement where
  value : Value → Value
  /-- The name that is written for the name of a field. -/
  key : String → Key
  text_key : ∀ name, (key name).text = name
  key_of_unescaped : ∀ name, name.toList.any Json.isEscaped = false → key name = .plain name
  bool : ∀ b, value (.bool b) = .bool b
  number : ∀ n, value (.number n) = .number n
  text : ∀ s, value (.text s) = .text s
  list : ∀ items, value (.list items) = .list (items.map value)
  object : ∀ fields : List (String × Value), (fields.map Prod.fst).Nodup →
    ∃ entries, value (.object fields) = .record entries ∧
      entries.Perm (fields.map fun f ↦ (key f.1, value f.2))

namespace Rearrangement

instance : CoeFun Rearrangement fun _ ↦ Value → Value := ⟨value⟩

def refl : Rearrangement where
  value := id
  key := .plain
  text_key _ := rfl
  key_of_unescaped _ _ := rfl
  bool _ := rfl
  number _ := rfl
  text _ := rfl
  list items := by rw [List.map_id, id]
  object fields _ := ⟨_, rfl, .refl _⟩

/-- Writing values with the names of their fields in order. -/
def sortKeys : Rearrangement where
  value := Value.sortKeys
  key := .plain
  text_key _ := rfl
  key_of_unescaped _ _ := rfl
  bool _ := rfl
  number _ := rfl
  text _ := rfl
  list items := by rw [Value.sortKeys, Value.sortKeysList_eq_map]
  object fields h := by
    refine ⟨_, rfl, ?_⟩
    have hdistinct : (fields.map fun f ↦ (Key.plain f.1, f.2)).Pairwise
        fun f g ↦ f.1.text ≠ g.1.text := by
      rw [List.pairwise_map]
      exact List.pairwise_map.1 h
    have hperm := Value.sortKeysFields_perm hdistinct fun _ _ ↦ List.forall_mem_nil _
    rwa [List.append_nil, List.map_map] at hperm

/-- Writing values as their texts are read. -/
def reread : Rearrangement where
  value := Value.reread
  key name := (Key.plain name).reread
  text_key name := Key.text_reread (.plain name)
  key_of_unescaped name h := by
    rw [Key.reread, Key.text, h]
    rfl
  bool _ := rfl
  number _ := rfl
  text _ := rfl
  list items := by rw [Value.reread, Value.rereadItems_eq_map]
  object fields _ := by
    refine ⟨_, by rw [Value.object, Value.reread], ?_⟩
    rw [Value.rereadFields_eq_map, List.map_map]
    exact .refl _

variable (σ : Rearrangement) {α : Type}

@[simp] theorem bool?_value (b : Bool) : (σ (.bool b)).bool? = some b := by
  rw [σ.bool, Value.bool?]

@[simp] theorem text?_value (s : String) : (σ (.text s)).text? = some s := by
  rw [σ.text, Value.text?]

@[simp] theorem count?_value (n : UInt64) : (σ (.count n)).count? = some n := by
  rw [Value.count, Value.int, σ.number]
  exact Value.count?_count n

theorem amount?_value {x : Float} (h : x.isFinite = true) : (σ (.amount x)).amount? = some x := by
  rw [Value.amount, if_pos h, σ.number, Value.amount?]

theorem list?_value {read : Value → Option α} {write : α → Value} {l : List α}
    (h : ∀ a ∈ l, read (σ (write a)) = some a) :
    Value.list? read (σ (.list (l.map write))) = some l := by
  rw [Value.list?, σ.list, List.map_map, Value.items?, Option.bind_some]
  exact mapM_map_eq_some h

/-- The fields of a written object are read as a map in any order. -/
theorem exists_entries_mapM {β : Type} {f : Key × Value → Option β} {fields : List (String × Value)}
    (hnodup : (fields.map Prod.fst).Nodup) {l : List β}
    (h : (fields.map fun e ↦ (σ.key e.1, σ e.2)).mapM f = some l) :
    ∃ entries l', (σ (.object fields)).entries? = some entries ∧ entries.mapM f = some l' ∧
      l'.Perm l := by
  obtain ⟨entries, hentries, hperm⟩ := σ.object fields hnodup
  obtain ⟨l', hl', hperm'⟩ := exists_mapM_of_perm hperm.symm h
  exact ⟨entries, l', by rw [hentries, Value.entries?], hl', hperm'⟩

/-- A map is read back if its values are. -/
theorem map?_value {read : Value → Option α} {write : α → Value} {m : SortedMap String α}
    (h : ∀ k a, m.get? k = some a → read (σ (write a)) = some a) :
    Value.map? read (σ (.object (m.toList.map fun e ↦ (e.1, write e.2)))) = some m := by
  have hnodup : ((m.toList.map fun e ↦ (e.1, write e.2)).map Prod.fst).Nodup := by
    rw [List.map_map]
    exact List.pairwise_map.2 m.pairwise_toList_ne
  have hread : ((m.toList.map fun e ↦ (e.1, write e.2)).map fun e ↦ (σ.key e.1, σ e.2)).mapM
      (fun e ↦ (read e.2).map (e.1.text, ·)) = some m.toList := by
    rw [List.map_map]
    refine mapM_map_eq_some fun e he ↦ ?_
    show (read (σ (write e.2))).map ((σ.key e.1).text, ·) = some e
    rw [h e.1 e.2 (SortedMap.get?_eq_some_iff.2 he), σ.text_key, Option.map_some]
  obtain ⟨entries, l, hentries, hl, hperm⟩ := σ.exists_entries_mapM hnodup hread
  rw [Value.map?, hentries]
  simp only [Option.bind_eq_bind, Option.bind_some, hl, SortedMap.ofList_eq_of_perm hperm,
    Option.pure_def]

/-- The decimal text of a number stands for it as a name. -/
theorem countKey?_digits (n : UInt64) :
    Value.countKey? (σ.key (String.ofList (Decimal.digits n.toNat))) = some n := by
  have hplain : (String.ofList (Decimal.digits n.toNat)).toList.any Json.isEscaped = false := by
    rw [String.toList_ofList, List.any_eq_false]
    exact fun c hc ↦ Bool.eq_false_iff.1 (Json.isEscaped_of_isDigit (Json.isDigit_of_mem_digits hc))
  rw [σ.key_of_unescaped _ hplain, Value.countKey?, String.toList_ofList, Decimal.canonical?,
    Json.ofDigits_digits, if_pos rfl, Option.bind_some]
  exact Value.count?_count n

theorem countMap?_value {read : Value → Option α} {write : α → Value} {m : SortedMap UInt64 α}
    (h : ∀ k a, m.get? k = some a → read (σ (write a)) = some a) :
    Value.countMap? read (σ (.object (m.toList.map fun e ↦
      (String.ofList (Decimal.digits e.1.toNat), write e.2)))) = some m := by
  have hnodup : ((m.toList.map fun e ↦
      (String.ofList (Decimal.digits e.1.toNat), write e.2)).map Prod.fst).Nodup := by
    rw [List.map_map]
    refine List.pairwise_map.2 (m.pairwise_toList_ne.imp fun hne heq ↦ hne ?_)
    have hdigits := congrArg Decimal.ofDigits (String.ofList_injective heq)
    rw [Json.ofDigits_digits, Json.ofDigits_digits] at hdigits
    exact UInt64.toNat_inj.1 hdigits
  have hread : ((m.toList.map fun e ↦ (String.ofList (Decimal.digits e.1.toNat), write e.2)).map
      fun e ↦ (σ.key e.1, σ e.2)).mapM (fun e ↦ do
        let k ← Value.countKey? e.1
        let a ← read e.2
        return (k, a)) = some m.toList := by
    rw [List.map_map]
    refine mapM_map_eq_some fun e he ↦ ?_
    simp only [Function.comp_apply, σ.countKey?_digits, Option.bind_eq_bind, Option.bind_some,
      h e.1 e.2 (SortedMap.get?_eq_some_iff.2 he), Option.pure_def]
  obtain ⟨entries, l, hentries, hl, hperm⟩ := σ.exists_entries_mapM hnodup hread
  rw [Value.countMap?, hentries]
  simp only [Option.bind_eq_bind, Option.bind_some, Option.pure_def] at hl ⊢
  rw [hl, Option.bind_some, SortedMap.ofList_eq_of_perm hperm]

/-- The entries of a written object can be read if the values of its fields can. -/
theorem areFieldsReadable_of_perm {fields : Fields} {entries : List (Key × Value)}
    (hperm : entries.Perm (fields.map fun f ↦ (σ.key f.1, σ f.2)))
    (h : ∀ f ∈ fields, (σ f.2).isReadable = true) : Value.areFieldsReadable entries = true := by
  refine Value.areFieldsReadable_iff.2 fun e he ↦ ?_
  obtain ⟨f, hf, rfl⟩ := List.mem_map.1 (hperm.mem_iff.1 he)
  exact h f hf

/-! ## Structures -/

/-- The texts of written names are the names. -/
theorem texts_perm {fields : Fields} {entries : List (Key × Value)}
    (hperm : entries.Perm (fields.map fun f ↦ (σ.key f.1, σ f.2))) :
    (entries.map fun e ↦ (e.1.text, e.2)).Perm (fields.map fun f ↦ (f.1, σ f.2)) := by
  have hmap := hperm.map fun e : Key × Value ↦ (e.1.text, e.2)
  rw [List.map_map] at hmap
  simpa only [Function.comp_def, σ.text_key] using hmap

/-- Fields of distinct names are found when they are written. -/
theorem get?_of_perm {fields fs : Fields} (hnodup : (fields.map Prod.fst).Nodup)
    (hperm : fs.Perm (fields.map fun f ↦ (f.1, σ f.2))) (name : String) :
    fs.get? name = (fields.get? name).map σ := by
  have hdistinct : ((fields.map fun f ↦ (f.1, σ f.2)).map Prod.fst).Nodup := by
    rwa [List.map_map]
  rw [Fields.get?_eq_of_perm hperm hdistinct, Fields.get?_map]

/-- The value of a field of a written object. -/
theorem field?_value {fields : Fields} (hnodup : (fields.map Prod.fst).Nodup) {name : String}
    {v : Value} (h : (name, v) ∈ fields) : (σ (.object fields)).field? name = some (σ v) := by
  obtain ⟨entries, hentries, hperm⟩ := σ.object fields hnodup
  have htexts := σ.texts_perm (entries.reverse_perm.trans hperm)
  rw [hentries, Value.field?_record, σ.get?_of_perm hnodup htexts,
    (Fields.get?_eq_some_iff hnodup).2 h, Option.map_some]

/-- The known fields of a written object are found under their names, and no others. -/
theorem exists_known (known : List String) (shown : Fields) {fields : Fields}
    {entries : List (Key × Value)} (hperm : entries.Perm (fields.map fun f ↦ (σ.key f.1, σ f.2)))
    (hnodup : (fields.map Prod.fst).Nodup)
    (hshown : fields.filter (fun f ↦ known.contains f.1) = shown) :
    ∃ fs, Fields.ofEntries? known entries = some fs ∧
      shown.Forall (fun f ↦ fs.get? f.1 = some (σ f.2)) ∧
      ∀ name, name ∉ shown.map Prod.fst → fs.get? name = none := by
  have hknown := (σ.texts_perm hperm).filter fun f ↦ known.contains f.1
  have hfilter : ((fields.map fun f ↦ (f.1, σ f.2)).filter fun f ↦ known.contains f.1) =
      shown.map fun f ↦ (f.1, σ f.2) := by
    rw [← hshown, List.filter_map]
    rfl
  rw [hfilter] at hknown
  have hdistinct : (shown.map Prod.fst).Nodup := by
    rw [← hshown]
    exact (List.filter_sublist.map Prod.fst).nodup hnodup
  have hnames := (hknown.map Prod.fst).nodup_iff.2 (by rwa [List.map_map])
  have hget := σ.get?_of_perm hdistinct hknown
  refine ⟨_, if_pos hnames, List.forall_iff_forall_mem.2 fun f hf ↦ ?_, fun name hname ↦ ?_⟩
  · rw [hget, (Fields.get?_eq_some_iff hdistinct).2 hf, Option.map_some]
  · rw [hget, Option.map_eq_none_iff, Option.eq_none_iff_forall_ne_some]
    exact fun v hv ↦ hname (List.mem_map_of_mem ((Fields.get?_eq_some_iff hdistinct).1 hv))

/-- What is read from the fields of a structure, which is written as an object of known names. -/
theorem bind_fields? {fields : Fields} {known : List String} {k : Fields → Option α} {a : α}
    (names : List String) (hnames : fields.map Prod.fst = names) (hnodup : names.Nodup)
    (hknown : ∀ name ∈ names, name ∈ known)
    (h : ∀ fs : Fields, fields.Forall (fun f ↦ fs.get? f.1 = some (σ f.2)) →
      (∀ name, name ∉ names → fs.get? name = none) → k fs = some a) :
    ((σ (.object fields)).fields? known).bind k = some a := by
  subst hnames
  obtain ⟨entries, hentries, hperm⟩ := σ.object fields hnodup
  have hshown : fields.filter (fun f ↦ known.contains f.1) = fields :=
    List.filter_eq_self.2 fun f hf ↦
      List.contains_iff_mem.2 (hknown f.1 (List.mem_map_of_mem hf))
  obtain ⟨fs, hfs, hget, hmissing⟩ := σ.exists_known known fields hperm hnodup hshown
  rw [hentries]
  show ((Fields.ofEntries? known entries).bind k) = some a
  rw [hfs, Option.bind_some]
  exact h fs hget hmissing

end Rearrangement

end OracleMarkets
