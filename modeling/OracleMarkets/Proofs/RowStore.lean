import Mathlib.Data.UInt
import OracleMarkets.Proofs.Generation

/-!
# What a warehouse keeps

A warehouse takes in a batch of rows or refuses it as a whole.  After any batches it answers like
the list of the last rows that accepted batches wrote, one for each key, with symbols in upper case
and with ids and ranks that a signed word of 64 bits can hold.
-/

namespace OracleMarkets

/-! ## Last rows -/

/-- The key with its symbols in upper case. -/
def RowKey.upper (k : RowKey) : RowKey :=
  { k with base := Text.upper k.base, quote := Text.upper k.quote }

/-- The number, or the greatest that a signed word of 64 bits holds. -/
def capSigned (n : UInt64) : UInt64 := UInt64.ofNat (min n.toNat (2 ^ 63 - 1))

/-- The row with its symbols in upper case, and with ids and ranks that a signed word holds. -/
def VenueRow.kept (r : VenueRow) : VenueRow :=
  { r with
    key := r.key.upper
    baseId := capSigned r.baseId
    quoteId := capSigned r.quoteId
    baseRank := capSigned r.baseRank
    quoteRank := capSigned r.quoteRank }

/-- The last row of each key, where the case of symbols makes no difference. -/
def lastWrites : List VenueRow → List VenueRow
  | [] => []
  | r :: rows =>
    if rows.any fun s ↦ s.key.upper = r.key.upper then lastWrites rows
    else r.kept :: lastWrites rows

@[simp] theorem VenueRow.key_kept (r : VenueRow) : r.kept.key = r.key.upper := rfl

theorem toNat_capSigned (n : UInt64) : (capSigned n).toNat = min n.toNat (2 ^ 63 - 1) := by
  rw [capSigned, UInt64.toNat_ofNat']
  omega

theorem min_maxId (n : UInt64) : min n Warehouse.maxId = capSigned n := by
  have hmax : Warehouse.maxId.toNat = 2 ^ 63 - 1 := by decide
  apply UInt64.toNat_inj.1
  rw [toNat_capSigned, ← hmax, UInt64.min_def]
  split
  · next h => rw [min_eq_left (UInt64.le_iff_toNat_le.1 h)]
  · next h => rw [min_eq_right (Nat.le_of_not_le (mt UInt64.le_iff_toNat_le.2 h))]

/-- A warehouse stores a row as it keeps it. -/
theorem Warehouse.stored_eq_kept (r : VenueRow) : stored r = r.kept := by
  simp only [stored, min_maxId]
  rfl

/-- A row of the last ones is what becomes of the last row of its key. -/
theorem mem_lastWrites {rows : List VenueRow} {s : VenueRow} :
    s ∈ lastWrites rows ↔
      (rows.filter fun r ↦ r.key.upper = s.key).getLast?.map VenueRow.kept = some s := by
  induction rows with
  | nil => simp [lastWrites]
  | cons r rows ih =>
    rw [lastWrites]
    by_cases hkey : r.key.upper = s.key
    · rw [List.filter_cons_of_pos (by simpa using hkey), List.getLast?_cons, hkey]
      cases hlater : rows.filter fun r ↦ r.key.upper = s.key with
      | nil =>
        have hnone : ¬(rows.any fun t ↦ t.key.upper = s.key) = true := by
          rw [List.any_eq_true]
          rintro ⟨t, ht, htk⟩
          exact List.filter_eq_nil_iff.1 hlater t ht htk
        rw [if_neg hnone, List.mem_cons, ih, hlater]
        simp [eq_comm]
      | cons t later =>
        have hsome : (rows.any fun t ↦ t.key.upper = s.key) = true := by
          obtain ⟨ht, htk⟩ := List.mem_filter.1 (hlater ▸ List.mem_cons_self : t ∈ rows.filter _)
          exact List.any_eq_true.2 ⟨t, ht, htk⟩
        rw [if_pos hsome, ih, hlater]
        simp [List.getLast?_cons]
    · have hne : s ≠ r.kept := fun h ↦ hkey (by rw [h, VenueRow.key_kept])
      rw [List.filter_cons_of_neg (by simpa using hkey), ← ih]
      split
      · exact Iff.rfl
      · rw [List.mem_cons, or_iff_right hne]

theorem exists_mem_of_mem_lastWrites {rows : List VenueRow} {s : VenueRow}
    (h : s ∈ lastWrites rows) : ∃ r ∈ rows, s = r.kept := by
  obtain ⟨r, hr, hs⟩ := Option.map_eq_some_iff.1 (mem_lastWrites.1 h)
  exact ⟨r, List.mem_of_mem_filter (List.mem_of_getLast? hr), hs.symm⟩

/-- No two of the last rows have the same key. -/
theorem nodup_key_lastWrites (rows : List VenueRow) :
    ((lastWrites rows).map VenueRow.key).Nodup := by
  induction rows with
  | nil => exact List.nodup_nil
  | cons r rows ih =>
    rw [lastWrites]
    split
    · exact ih
    · next hnone =>
      rw [List.map_cons, List.nodup_cons]
      refine ⟨fun hmem ↦ hnone ?_, ih⟩
      obtain ⟨s, hs, hsk⟩ := List.mem_map.1 hmem
      obtain ⟨t, ht, rfl⟩ := exists_mem_of_mem_lastWrites hs
      exact List.any_eq_true.2 ⟨t, ht, by simpa using hsk⟩

/-- If no two rows have the same key, each is the last of its key. -/
theorem lastWrites_of_nodup {rows : List VenueRow} (h : (rows.map fun r ↦ r.key.upper).Nodup) :
    lastWrites rows = rows.map VenueRow.kept := by
  induction rows with
  | nil => rfl
  | cons r rows ih =>
    obtain ⟨hr, hrows⟩ := List.nodup_cons.1 h
    rw [lastWrites, if_neg, ih hrows, List.map_cons]
    rw [List.any_eq_true]
    rintro ⟨s, hs, hsr⟩
    exact hr (List.mem_map.2 ⟨s, hs, of_decide_eq_true hsr⟩)

/-! ## The table of a warehouse -/

namespace Warehouse

/-- Every row of the warehouse is kept under its own key. -/
def Keyed (w : Warehouse) : Prop := ∀ e ∈ w.table.toList, e.2.key = e.1

/-- A warehouse answers like the list of its rows. -/
theorem venueRows_eq_snapshot {w : Warehouse} (hw : w.Keyed) :
    w.venueRows = (Snapshot.mk w.table.values).venueRows := by
  funext venues
  refine (List.mergeSort_of_pairwise ?_).symm
  refine List.Pairwise.filter _ ?_
  rw [SortedMap.values, List.pairwise_map]
  refine w.table.sorted.imp_of_mem fun {a b} ha hb hab ↦ ?_
  rw [VenueRow.keyLe, hw a ha, hw b hb, hab]
  rfl

theorem mem_values_iff {w : Warehouse} (hw : w.Keyed) {r : VenueRow} :
    r ∈ w.table.values ↔ w.table.get? r.key = some r := by
  rw [SortedMap.get?_eq_some_iff, SortedMap.values, List.mem_map]
  constructor
  · rintro ⟨⟨k, s⟩, he, rfl⟩
    rwa [hw _ he]
  · exact fun h ↦ ⟨_, h, rfl⟩

/-- No two stored rows have the same key. -/
theorem nodup_key_values {w : Warehouse} (hw : w.Keyed) :
    (w.table.values.map VenueRow.key).Nodup := by
  rw [SortedMap.values, List.map_map, List.Nodup, List.pairwise_map]
  refine w.table.pairwise_toList_ne.imp_of_mem fun {a b} ha hb hab ↦ ?_
  rwa [Function.comp, Function.comp, hw a ha, hw b hb]

/-- The table holds at each key what becomes of the last row of this key. -/
theorem get?_table_foldl_write (rows : List VenueRow) (k : RowKey) :
    (rows.foldl write empty).table.get? k =
      (rows.filter fun r ↦ r.key.upper = k).getLast?.map VenueRow.kept := by
  have run : ∀ (rows : List VenueRow) (w : Warehouse), (rows.foldl write w).table.get? k =
      ((rows.filter fun r ↦ r.key.upper = k).getLast?.map VenueRow.kept).or (w.table.get? k) := by
    intro rows
    induction rows with
    | nil => exact fun w ↦ rfl
    | cons r rows ih =>
      intro w
      rw [List.foldl_cons, ih, write, stored_eq_kept, SortedMap.get?_insert, VenueRow.key_kept]
      by_cases hkey : r.key.upper = k
      · rw [List.filter_cons_of_pos (by simpa using hkey), List.getLast?_cons, if_pos hkey.symm]
        cases (rows.filter fun r ↦ r.key.upper = k).getLast? <;> rfl
      · rw [List.filter_cons_of_neg (by simpa using hkey), if_neg (Ne.symm hkey)]
  rw [run rows empty]
  exact Option.or_none

theorem keyed_foldl_write (rows : List VenueRow) : (rows.foldl write empty).Keyed := by
  rintro ⟨k, s⟩ he
  have hs := SortedMap.get?_eq_some_iff.2 he
  rw [get?_table_foldl_write] at hs
  obtain ⟨r, hr, rfl⟩ := Option.map_eq_some_iff.1 hs
  exact of_decide_eq_true (List.mem_filter.1 (List.mem_of_getLast? hr)).2

/-- The rows that are left of those written one after another are the last ones. -/
theorem values_foldl_write_perm (rows : List VenueRow) :
    (rows.foldl write empty).table.values.Perm (lastWrites rows) := by
  have hkeyed := keyed_foldl_write rows
  refine (List.perm_ext_iff_of_nodup (nodup_key_values hkeyed).of_map
    (nodup_key_lastWrites rows).of_map).2 fun r ↦ ?_
  rw [mem_values_iff hkeyed, get?_table_foldl_write, mem_lastWrites]

/-- A warehouse into which rows are written answers like the list of the last ones. -/
theorem venueRows_foldl_write (rows : List VenueRow) :
    (rows.foldl write empty).venueRows = (Snapshot.mk (lastWrites rows)).venueRows := by
  have hkeyed := keyed_foldl_write rows
  rw [venueRows_eq_snapshot hkeyed]
  exact Snapshot.venueRows_eq_of_perm (values_foldl_write_perm rows) (nodup_key_values hkeyed)

/-! ## Batches -/

/-- The warehouse after a batch, which is left as it was if the batch is refused. -/
def tryIngest (w : Warehouse) (batch : List VenueRow) : Warehouse :=
  (w.ingest batch).toOption.getD w

/-- The warehouse after batches of which some may have been refused. -/
def ofBatches (batches : List (List VenueRow)) : Warehouse := batches.foldl tryIngest empty

/-- The rows of the batches without a row that is not valid. -/
def accepted (batches : List (List VenueRow)) : List VenueRow :=
  (batches.filter fun batch ↦ batch.all fun r ↦ r.validate = .ok ()).flatten

variable {w : Warehouse} {batch : List VenueRow}

/-- All rows of a batch are taken in if all are valid. -/
theorem ingest_of_valid (h : ∀ r ∈ batch, r.validate = .ok ()) :
    w.ingest batch = .ok (batch.foldl write w) := by
  rw [ingest, forM_eq_ok_iff.2 h]
  rfl

/-- Batches of valid rows are taken in one after another, whatever their sizes. -/
theorem foldlM_ingest_of_valid {batches : List (List VenueRow)}
    (h : ∀ r ∈ batches.flatten, r.validate = .ok ()) (w : Warehouse) :
    batches.foldlM ingest w = .ok (batches.flatten.foldl write w) := by
  induction batches generalizing w with
  | nil => rfl
  | cons batch batches ih =>
    obtain ⟨hbatch, hrest⟩ := List.forall_mem_append.1 h
    rw [List.foldlM_cons, ingest_of_valid hbatch, List.flatten_cons, List.foldl_append]
    exact ih hrest (batch.foldl write w)

/-- A batch is refused for one of its rows if not all are valid. -/
theorem exists_ingest_eq_error (h : ∃ r ∈ batch, r.validate ≠ .ok ()) :
    ∃ r ∈ batch, ∃ e, r.validate = .error e ∧ w.ingest batch = .error e := by
  cases hrun : batch.forM VenueRow.validate with
  | ok u =>
    obtain ⟨r, hr, hinvalid⟩ := h
    exact absurd (forM_eq_ok_iff.1 hrun r hr) hinvalid
  | error e =>
    obtain ⟨r, hr, he⟩ := exists_eq_error_of_forM hrun
    refine ⟨r, hr, e, he, ?_⟩
    rw [ingest, hrun]
    rfl

/-- A batch with a row that is not valid is refused as a whole. -/
theorem tryIngest_of_invalid (h : ∃ r ∈ batch, r.validate ≠ .ok ()) : w.tryIngest batch = w := by
  obtain ⟨r, -, e, -, he⟩ := exists_ingest_eq_error (w := w) h
  rw [tryIngest, he]
  rfl

/-- Of some batches the rows of the accepted ones are written. -/
theorem foldl_tryIngest (batches : List (List VenueRow)) (w : Warehouse) :
    batches.foldl tryIngest w = (accepted batches).foldl write w := by
  induction batches generalizing w with
  | nil => rfl
  | cons batch batches ih =>
    rw [List.foldl_cons, ih, accepted, accepted]
    by_cases hvalid : ∀ r ∈ batch, r.validate = .ok ()
    · rw [List.filter_cons_of_pos (by simpa using hvalid), List.flatten_cons, List.foldl_append,
        tryIngest, ingest_of_valid hvalid]
      rfl
    · rw [List.filter_cons_of_neg (by simpa using hvalid),
        tryIngest_of_invalid (by simpa using hvalid)]

/-- A batch of valid rows is taken in.  A batch with a row that is not valid, wherever it stands, is
refused for such a row and changes nothing.  After any batches a warehouse answers like the list of
the last rows that the accepted ones wrote, one for each key, in upper case and with ids and ranks
that a signed word holds. -/
theorem keeps_last_accepted :
    (∀ batches batch, (∀ r ∈ batch, r.validate = .ok ()) →
      (ofBatches batches).ingest batch = .ok (ofBatches (batches ++ [batch]))) ∧
    (∀ batches batch, (∃ r ∈ batch, r.validate ≠ .ok ()) →
      (∃ r ∈ batch, ∃ e, r.validate = .error e ∧ (ofBatches batches).ingest batch = .error e) ∧
        ofBatches (batches ++ [batch]) = ofBatches batches) ∧
    ∀ batches venues, (ofBatches batches).venueRows venues =
      (Snapshot.mk (lastWrites (accepted batches))).venueRows venues := by
  refine ⟨fun batches batch hvalid ↦ ?_, fun batches batch hinvalid ↦ ?_, fun batches venues ↦ ?_⟩
  · rw [ofBatches, ofBatches, List.foldl_append, List.foldl_cons, List.foldl_nil, tryIngest,
      ingest_of_valid hvalid]
    rfl
  · refine ⟨exists_ingest_eq_error hinvalid, ?_⟩
    rw [ofBatches, List.foldl_append]
    exact tryIngest_of_invalid hinvalid
  · rw [ofBatches, foldl_tryIngest, venueRows_foldl_write]

/-- A row, and two later ones that differ from it only in the case of symbols and in their ranks, of
which the last is the greatest number. -/
def rewrites : List VenueRow :=
  [smallRow "USDT" "USD" 3 0,
    { smallRow "USDT" "USD" 5 0 with key := ⟨"kraken", "USDT-USD", "usdt", "usd"⟩ },
    { smallRow "USDT" "USD" 0xFFFFFFFFFFFFFFFF 0 with
      key := ⟨"kraken", "USDT-USD", "Usdt", "usd"⟩ }]

/-- A row that is valid, and one without a quote. -/
def faulty : List VenueRow := [smallRow "ETH" "USD" 2 0, smallRow "ETH" " " 2 0]

/-- Of three rows of one key the last is kept with its rank cut off, and the faulty batch leaves no
trace. -/
theorem keeps_last_accepted_rewrites :
    ((∀ r ∈ rewrites, r.validate = .ok ()) ∧
        (ofBatches []).ingest rewrites = .ok (ofBatches ([] ++ [rewrites]))) ∧
      ((∃ r ∈ faulty, r.validate ≠ .ok ()) ∧
        (∃ r ∈ faulty, ∃ e, r.validate = .error e ∧
          (ofBatches [rewrites]).ingest faulty = .error e) ∧
        ofBatches ([rewrites] ++ [faulty]) = ofBatches [rewrites]) ∧
      (ofBatches [rewrites, faulty]).venueRows ["kraken", "kraken", "elsewhere"] =
        (Snapshot.mk (lastWrites (accepted [rewrites, faulty]))).venueRows
          ["kraken", "kraken", "elsewhere"] ∧
      (lastWrites (accepted [rewrites, faulty])).map (fun r ↦ (r.key, r.baseRank.toNat)) =
        [(⟨"kraken", "USDT-USD", "USDT", "USD"⟩, 2 ^ 63 - 1)] := by
  have hrewrites : ∀ r ∈ rewrites, r.validate = .ok () := by decide +kernel
  have hfaulty : ∃ r ∈ faulty, r.validate ≠ .ok () := by decide +kernel
  obtain ⟨htaken, hrefused, hanswer⟩ := keeps_last_accepted
  exact ⟨⟨hrewrites, htaken [] rewrites hrewrites⟩,
    ⟨hfaulty, hrefused [rewrites] faulty hfaulty⟩, hanswer [rewrites, faulty] _,
    by decide +kernel⟩

end Warehouse

end OracleMarkets
