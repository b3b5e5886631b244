import OracleMarkets.Proofs.Process

/-!
# The database of a process

A transaction that fails, wherever it does, leaves the disk as it was before
(`disk_of_transact_eq_error`): until rows are committed they are in the transaction only
(`Process.Holds`).  Opening the database changes no rows, and makes the file of the database at most
(`Process.Spares`).
-/

namespace OracleMarkets.CommandLine.Process

variable {engine : Engine} {path : String} {stamp : Stamp} {p p' p'' : Process} {s : Statement}
  {rows : List VenueRow}

/-! ## Statements within transactions -/

/-- A transaction that is rolled back changes nothing on the disk, and neither does one that cannot
be rolled back. -/
theorem exec_abort (engine : Engine) (path : String) (stamp : Stamp) (e : Failure) (p : Process) :
    ∃ q, exec ((host engine path stamp).abort e) p = (.error e, q) ∧ q.disk = p.disk := by
  rw [Host.abort, exec_bind, exec_tryCatch]
  rcases h : exec ((host engine path stamp).tell .rollback) p with ⟨_ | ⟨⟩, q⟩
  · exact ⟨q, rfl, (holds_of_tell_eq_error h).disk⟩
  · obtain ⟨place, c, -, rfl⟩ := tell_eq_ok h
    exact ⟨_, rfl, rfl⟩

variable {act : ExceptT Failure (StateM Process) Unit}

/-- A transaction that succeeds is started, done and committed. -/
theorem transact_eq_ok (h : exec ((host engine path stamp).transact act) p = (.ok (), p')) :
    ∃ q r, exec ((host engine path stamp).tell .begin) p = (.ok (), q) ∧
      exec act q = (.ok (), r) ∧ exec ((host engine path stamp).tell .commit) r = (.ok (), p') := by
  obtain ⟨⟨⟩, q, hbegin, h⟩ := exec_bind_eq_ok.1 h
  obtain ⟨⟨⟩, r, hact, hcommit⟩ := exec_bind_eq_ok.1 h
  rw [exec_tryCatch] at hact
  rcases hrun : exec act q with ⟨e | ⟨⟩, r'⟩
  · obtain ⟨q', habort, -⟩ := exec_abort engine path stamp e r'
    rw [hrun] at hact
    dsimp only at hact
    rw [habort] at hact
    cases hact
  · rw [hrun] at hact
    cases hact
    exact ⟨q, r, hbegin, hrun, hcommit⟩

/-- At most the file of the database at `path` is new on the disk, with no rows, where there was
none or an empty one. -/
def Spares (path : String) (p p' : Process) : Prop :=
  p'.disk.files = p.disk.files ∨
    ∃ place, p'.disk.target path = .ok place ∧ p.disk.IsBlank place ∧
      p'.disk.files = p.disk.files.insert place (.database .empty)

theorem Spares.refl (path : String) (p : Process) : p.Spares path p := .inl rfl

/-- A database is made only where there is no file or an empty one. -/
theorem isBlank_of_isNew? {d : Disk} {place : List String}
    (h : isNew? engine (d.files.get? place) = some true) : d.IsBlank place := by
  unfold isNew? at h
  split at h
  · next hnone => exact .inl hnone
  · cases h
  · next text htext =>
    split at h
    · next hempty =>
      rw [Bool.and_eq_true, String.isEmpty_iff] at hempty
      exact .inr (hempty.2 ▸ htext)
    · cases h

/-- A process that has opened the database at `path`, whose file is at `place`.  Unless this file is
new the disk has the same files as before. -/
structure HasOpened (path : String) (place : List String) (p p' : Process) : Prop where
  leads : (p.disk.makeParent path).1.target path = .ok place
  target : p'.disk.target path = .ok place
  connection : ∃ c, p'.connection = some (place, c) ∧ c.transaction = none ∧
    ((c.isNew = false ∧ p'.disk.files = p.disk.files) ∨
      (c.isNew = true ∧ p.disk.IsBlank place ∧
        p'.disk.files = p.disk.files.insert place (.database .empty)))

/-- Opening the database makes no file but its own. -/
theorem HasOpened.spares {place : List String} (h : p.HasOpened path place p') :
    p.Spares path p' := by
  obtain ⟨c, -, -, ⟨-, hfiles⟩ | ⟨-, hblank, hfiles⟩⟩ := h.connection
  · exact .inl hfiles
  · exact .inr ⟨place, h.target, hblank, hfiles⟩

/-- Opening a database changes no rows. -/
theorem Spares.rowsAt (h : p.Spares path p') (place : List String) :
    p'.disk.rowsAt place = p.disk.rowsAt place := by
  obtain hfiles | ⟨made, -, hblank, hfiles⟩ := h
  · exact Disk.rowsAt_congr hfiles
  · rw [Disk.rowsAt_congr (d := p.disk.store made (.database .empty)) hfiles, Disk.rowsAt_store]
    split
    · next hsame => rw [hsame, hblank.rowsAt]
    · rfl

/-- Reading statements leave the database open. -/
theorem HasOpened.advance {place place' : List String} {c : Connection}
    (h : p.HasOpened path place p') (hs : s.isReading = true)
    (hc : p'.connection = some (place', c)) : p.HasOpened path place (p'.advance place' c s) := by
  obtain ⟨c', hc', hnone, hfiles⟩ := h.connection
  rw [hc] at hc'
  cases hc'
  have hsilent : c.storedAfter (p'.disk.rowsAt place) s = none ∧
      c.transactionAfter (p'.disk.rowsAt place) s = none := by
    cases s <;> first | exact ⟨rfl, hnone⟩ | cases hs
  have hdisk : (p'.advance place c s).disk = p'.disk := by simp only [Process.advance, hsilent.1]
  refine ⟨h.leads, by rw [hdisk]; exact h.target,
    c.after (p'.disk.rowsAt place) s, rfl, hsilent.2, ?_⟩
  rw [hdisk]
  exact hfiles

theorem HasOpened.tell {place : List String} (h : p.HasOpened path place p')
    (hs : s.isReading = true)
    (htell : exec ((host engine path stamp).tell s) p' = (.ok (), p'')) :
    p.HasOpened path place p'' := by
  obtain ⟨place', c, hc, rfl⟩ := tell_eq_ok htell
  exact h.advance hs hc

theorem hasOpened_of_connect (h : exec (connect engine path) p = (.ok (), p')) :
    ∃ place, p.HasOpened path place p' := by
  obtain ⟨e, hrun⟩ | ⟨d, place, isNew, hmade, hplace, hnew, hrun⟩ := connect_cases engine path p
  · rw [hrun] at h
    cases h
  · rw [hrun] at h
    cases h
    have hfurnishes := p.disk.furnishes_makeParent path
    rw [hmade] at hfurnishes
    have hleads : (p.disk.makeParent path).1.target path = .ok place := by rwa [hmade]
    cases isNew with
    | false => exact ⟨place, hleads, hplace, _, rfl, rfl, .inl ⟨rfl, hfurnishes.files⟩⟩
    | true =>
      have hdir := (Disk.target_eq_ok_iff.1 hplace).2.2
      have hextends := Disk.extends_store hdir (.database .empty)
      have hblank := isBlank_of_isNew? hnew
      rw [Disk.IsBlank, hfurnishes.files] at hblank
      exact ⟨place, hleads, Disk.target_of_isOpen hextends.isOpen hdir hplace, _, rfl, rfl,
        .inr ⟨rfl, hblank, congrArg (SortedMap.insert · place _) hfurnishes.files⟩⟩

/-- A warehouse that is open is connected to the file at its path. -/
theorem hasOpened_of_openWarehouse
    (h : exec (host engine path stamp).openWarehouse p = (.ok (), p')) :
    ∃ place, p.HasOpened path place p' := by
  obtain ⟨⟨⟩, q, hconnect, h⟩ := exec_bind_eq_ok.1 h
  obtain ⟨⟨⟩, q', hconfigure, hmigrate⟩ := exec_bind_eq_ok.1 h
  obtain ⟨place, hopened⟩ := hasOpened_of_connect hconnect
  exact ⟨place, (hopened.tell rfl hconfigure).tell rfl hmigrate⟩

/-- The rows of the open database are found, and finding them leaves it open. -/
theorem venueRows_eq_ok {place : List String} {venues : List String}
    (hopened : p.HasOpened path place p')
    (h : exec ((host engine path stamp).venueRows venues) p' = (.ok rows, p'')) :
    rows = (p.disk.rowsAt place).venueRows venues ∧ p.HasOpened path place p'' := by
  unfold Host.venueRows at h
  split at h
  · next hempty =>
    cases h
    rw [List.isEmpty_iff] at hempty
    subst hempty
    exact ⟨(List.filter_eq_nil_iff.2 fun _ _ ↦ by simp).symm, hopened⟩
  · obtain ⟨⟨⟩, q, hconfigure, h⟩ := exec_bind_eq_ok.1 h
    have hconfigured := hopened.tell rfl hconfigure
    obtain ⟨c, hc, hnone⟩ := hconfigured.connection
    obtain ⟨place', c', hc', rfl, rfl⟩ := ask_eq_ok h
    rw [hc] at hc'
    cases hc'
    refine ⟨?_, hconfigured.advance rfl hc⟩
    rw [Connection.answer, hnone.1, Option.getD_none, hconfigured.spares.rowsAt]

section New

variable {place : List String} {c : Connection}

end New

/-! ## Taking in rows -/

/-- A row that is inserted is in the transaction and not on the disk. -/
theorem insert_eq_ok {place : List String} {c : Connection} {w : Warehouse} {r : VenueRow}
    (hc : p.connection = some (place, c)) (hw : c.transaction = some w)
    (h : exec ((host engine path stamp).tell (.insert r)) p = (.ok (), p')) :
    p'.disk = p.disk ∧
      ∃ c', p'.connection = some (place, c') ∧ c'.transaction = some (w.write r) := by
  obtain ⟨place', c', hc', rfl⟩ := tell_eq_ok h
  rw [hc] at hc'
  cases hc'
  refine ⟨?_, _, rfl, ?_⟩
  · simp only [advance, Connection.storedAfter, hw, Option.isSome_some, if_true]
  · simp only [Connection.after, Connection.transactionAfter, hw, Option.map_some]

/-- Rows that are inserted one after another are written to the transaction in this order. -/
theorem forM_insert_eq_ok {place : List String} {c : Connection} {w : Warehouse}
    {batch : List VenueRow} (hc : p.connection = some (place, c)) (hw : c.transaction = some w)
    (h : exec (batch.forM fun r ↦ (host engine path stamp).tell (.insert r)) p = (.ok (), p')) :
    p'.disk = p.disk ∧ ∃ c', p'.connection = some (place, c') ∧
      c'.transaction = some (batch.foldl Warehouse.write w) := by
  induction batch generalizing p c w with
  | nil =>
    cases h
    exact ⟨rfl, c, hc, hw⟩
  | cons r batch ih =>
    obtain ⟨⟨⟩, q, hfirst, hrest⟩ := exec_bind_eq_ok.1 h
    obtain ⟨hdisk, c₁, hc₁, hw₁⟩ := insert_eq_ok hc hw hfirst
    obtain ⟨hdisk', hc'⟩ := ih hc₁ hw₁ hrest
    exact ⟨hdisk'.trans hdisk, hc'⟩

/-- Rows that are inserted within a transaction are stored when it is committed. -/
theorem transact_insertRows_eq_ok {place : List String} {c : Connection} {batch : List VenueRow}
    (hc : p.connection = some (place, c)) (hnone : c.transaction = none)
    (h : exec ((host engine path stamp).transact ((host engine path stamp).insertRows batch)) p =
      (.ok (), p')) :
    p'.disk = p.disk.store place (.database (batch.foldl .write (p.disk.rowsAt place))) := by
  obtain ⟨q, r, hbegin, h, hcommit⟩ := transact_eq_ok h
  obtain ⟨place₁, c₁, hc₁, rfl⟩ := tell_eq_ok hbegin
  rw [hc] at hc₁
  cases hc₁
  obtain ⟨⟨⟩, q, hprepare, hinsert⟩ := exec_bind_eq_ok.1 h
  obtain ⟨place₂, c₂, hc₂, rfl⟩ := tell_eq_ok hprepare
  cases hc₂
  obtain ⟨hdisk, c₃, hc₃, hrows⟩ := forM_insert_eq_ok rfl rfl hinsert
  obtain ⟨place₄, c₄, hc₄, rfl⟩ := tell_eq_ok hcommit
  rw [hc₃] at hc₄
  cases hc₄
  simp only [advance, Connection.storedAfter, hrows, hdisk, hnone, Option.getD_none]

/-- A batch that is taken in is stored in the open database. -/
theorem ingest_eq_ok {place : List String} {batch : List VenueRow}
    (hopened : p.HasOpened path place p')
    (h : exec ((host engine path stamp).ingest batch) p' = (.ok (), p'')) :
    p''.disk.target path = .ok place ∧
      (p.disk.rowsAt place).ingest batch = .ok (p''.disk.rowsAt place) := by
  rw [← hopened.spares.rowsAt]
  unfold Host.ingest at h
  split at h
  · next hempty =>
    cases h
    rw [List.isEmpty_iff] at hempty
    subst hempty
    exact ⟨hopened.target, rfl⟩
  · obtain ⟨⟨⟩, hvalid, h⟩ := ofExcept_bind_eq_ok.1 h
    obtain ⟨c, hc, hnone, -⟩ := hopened.connection
    have hdisk := transact_insertRows_eq_ok hc hnone h
    have hdir := (Disk.target_eq_ok_iff.1 hopened.target).2.2
    refine ⟨?_, bind_eq_ok.2 ⟨(), mapError_eq_ok.1 hvalid, ?_⟩⟩
    · rw [hdisk]
      exact Disk.target_of_isOpen (Disk.extends_store hdir _).isOpen hdir hopened.target
    · rw [hdisk, Disk.rowsAt_store, if_pos rfl]
      rfl

end OracleMarkets.CommandLine.Process
