/-!
# Maps sorted by key

A `SortedMap κ α` is the list of its entries in strictly increasing key order.  The order is part
of the type, so two maps are equal exactly when they hold the same value at every key
(`SortedMap.ext_get?`), and everything that walks over a map does so in key order.

Strings are ordered by code point, which is also the order of their UTF-8 bytes.
-/

namespace OracleMarkets

/-- A finite map, held as its entries in strictly increasing key order. -/
structure SortedMap (κ : Type) (α : Type) [Ord κ] where
  toList : List (κ × α)
  sorted : toList.Pairwise (fun a b ↦ compare a.1 b.1 = .lt)

namespace SortedMap

/-! ## Entry lists -/

section Entries

variable {κ α β : Type} [Ord κ]

def lookup (k : κ) : List (κ × α) → Option α
  | [] => none
  | (j, a) :: l => if compare k j = .eq then some a else lookup k l

/-- Puts the value `f v` at `k`, where `v` is the value that `k` had. -/
def alterEntries (k : κ) (f : Option α → α) : List (κ × α) → List (κ × α)
  | [] => [(k, f none)]
  | (j, a) :: l =>
    match compare k j with
    | .lt => (k, f none) :: (j, a) :: l
    | .eq => (k, f (some a)) :: l
    | .gt => (j, a) :: alterEntries k f l

theorem mem_alterEntries {k : κ} {f : Option α → α} {l : List (κ × α)} {x : κ × α}
    (h : x ∈ alterEntries k f l) : x ∈ l ∨ x.1 = k := by
  induction l with
  | nil => simp_all [alterEntries]
  | cons e l ih =>
    obtain ⟨j, a⟩ := e
    unfold alterEntries at h
    split at h
    · rcases List.mem_cons.1 h with rfl | h
      · exact .inr rfl
      · exact .inl h
    · rcases List.mem_cons.1 h with rfl | h
      · exact .inr rfl
      · exact .inl (List.mem_cons_of_mem _ h)
    · rcases List.mem_cons.1 h with rfl | h
      · exact .inl List.mem_cons_self
      · exact (ih h).imp_left (List.mem_cons_of_mem _)

/-- Writing keeps the keys in strictly increasing order. -/
theorem pairwise_alterEntries [Std.TransOrd κ] [Std.LawfulEqOrd κ] (k : κ) (f : Option α → α)
    {l : List (κ × α)} (h : l.Pairwise (fun a b ↦ compare a.1 b.1 = .lt)) :
    (alterEntries k f l).Pairwise (fun a b ↦ compare a.1 b.1 = .lt) := by
  induction l with
  | nil => simp [alterEntries]
  | cons e l ih =>
    obtain ⟨j, a⟩ := e
    obtain ⟨hj, hl⟩ := List.pairwise_cons.1 h
    unfold alterEntries
    split
    · rename_i hc
      refine List.pairwise_cons.2 ⟨fun x hx ↦ ?_, h⟩
      rcases List.mem_cons.1 hx with rfl | hx
      · exact hc
      · exact Std.TransCmp.lt_trans hc (hj x hx)
    · rename_i hc
      cases Std.LawfulEqCmp.compare_eq_iff_eq.1 hc
      exact List.pairwise_cons.2 ⟨hj, hl⟩
    · rename_i hc
      refine List.pairwise_cons.2 ⟨fun x hx ↦ ?_, ih hl⟩
      rcases mem_alterEntries hx with hx | hx
      · exact hj x hx
      · exact hx ▸ Std.OrientedCmp.gt_iff_lt.1 hc

end Entries

/-! ## Operations -/

section Operations

variable {κ α β : Type} [Ord κ]

instance : EmptyCollection (SortedMap κ α) := ⟨⟨[], .nil⟩⟩

instance : Inhabited (SortedMap κ α) := ⟨∅⟩

instance [DecidableEq κ] [DecidableEq α] : DecidableEq (SortedMap κ α) := fun m n ↦
  decidable_of_iff (m.toList = n.toList)
    ⟨fun h ↦ by cases m; cases n; cases h; rfl, fun h ↦ h ▸ rfl⟩

def get? (m : SortedMap κ α) (k : κ) : Option α := lookup k m.toList

def getD (m : SortedMap κ α) (k : κ) (d : α) : α := (m.get? k).getD d

def contains (m : SortedMap κ α) (k : κ) : Bool := (m.get? k).isSome

def keys (m : SortedMap κ α) : List κ := m.toList.map (·.1)

def values (m : SortedMap κ α) : List α := m.toList.map (·.2)

def size (m : SortedMap κ α) : Nat := m.toList.length

def isEmpty (m : SortedMap κ α) : Bool := m.toList.isEmpty

def mapValues (f : κ → α → β) (m : SortedMap κ α) : SortedMap κ β where
  toList := m.toList.map (fun e ↦ (e.1, f e.1 e.2))
  sorted := List.pairwise_map.2 m.sorted

def filter (p : κ → α → Bool) (m : SortedMap κ α) : SortedMap κ α where
  toList := m.toList.filter (fun e ↦ p e.1 e.2)
  sorted := m.sorted.filter _

def erase (m : SortedMap κ α) (k : κ) : SortedMap κ α :=
  m.filter (fun j _ ↦ compare k j != .eq)

variable [Std.TransOrd κ] [Std.LawfulEqOrd κ]

/-- Puts `f v` at `k`, where `v` is the value that `k` had. -/
def alter (m : SortedMap κ α) (k : κ) (f : Option α → α) : SortedMap κ α where
  toList := alterEntries k f m.toList
  sorted := pairwise_alterEntries k f m.sorted

/-- Puts `a` at `k`, in the place of any value that `k` had. -/
def insert (m : SortedMap κ α) (k : κ) (a : α) : SortedMap κ α := m.alter k (fun _ ↦ a)

/-- The map of a list of entries, a later entry winning over an earlier one with its key. -/
def ofList (l : List (κ × α)) : SortedMap κ α := l.foldl (fun m e ↦ m.insert e.1 e.2) ∅

/-- The elements of a list grouped by `key`, each group in the order of the list. -/
def groupBy (key : α → κ) (l : List α) : SortedMap κ (List α) :=
  l.foldl (fun m a ↦ m.alter (key a) (fun group ↦ group.getD [] ++ [a])) ∅

end Operations

end SortedMap

abbrev SortedSet (κ : Type) [Ord κ] := SortedMap κ Unit

namespace SortedSet

variable {κ : Type} [Ord κ] [Std.TransOrd κ] [Std.LawfulEqOrd κ]

/-- The set of the elements of a list. -/
def ofList (l : List κ) : SortedSet κ := SortedMap.ofList (l.map (·, ()))

end SortedSet

end OracleMarkets
