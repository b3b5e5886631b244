import OracleMarkets.CommandLine.Session
import OracleMarkets.Proofs.Disk

/-!
# Actions of a process

What an action gives and what it leaves, in terms of its steps.  An action that fails leaves what
its steps have done up to the failure.  For every primitive action one lemma tells all that it can
do, and the others rest on it: reading changes nothing (`Inert`), no action on files or on the
database prints (`Silent`), and a statement that is refused leaves the disk and the open transaction
as they are (`Process.Holds`).  What is kept from step to step is kept by a whole action
(`rel_exec_bind`).
-/

namespace OracleMarkets.CommandLine.Process

section Steps

variable {ε ε' α β : Type} {x : ExceptT ε (StateM Process) α}
  {f : α → ExceptT ε (StateM Process) β} {p p' : Process} {b : β} {e : ε}

@[simp]
theorem exec_pure (a : α) (p : Process) :
    exec (pure a : ExceptT ε (StateM Process) α) p = (.ok a, p) := rfl

@[simp]
theorem exec_throw (e : ε) (p : Process) :
    exec (throw e : ExceptT ε (StateM Process) α) p = (.error e, p) := rfl

@[simp]
theorem exec_get (p : Process) :
    exec (get : ExceptT ε (StateM Process) Process) p = (.ok p, p) := rfl

@[simp]
theorem exec_set (q p : Process) :
    exec (set q : ExceptT ε (StateM Process) PUnit) p = (.ok ⟨⟩, q) := rfl

@[simp]
theorem exec_modify (g : Process → Process) (p : Process) :
    exec (modify g : ExceptT ε (StateM Process) PUnit) p = (.ok ⟨⟩, g p) := rfl

@[simp]
theorem exec_ofExcept (r : Except ε α) (p : Process) :
    exec (ofExcept r : ExceptT ε (StateM Process) α) p = (r, p) := by
  cases r <;> rfl

/-- An action goes on from what the one before it leaves, unless that one fails. -/
@[simp]
theorem exec_bind (x : ExceptT ε (StateM Process) α) (f : α → ExceptT ε (StateM Process) β)
    (p : Process) :
    exec (x >>= f) p =
      match exec x p with
      | (.ok a, p') => exec (f a) p'
      | (.error e, p') => (.error e, p') := by
  show ((ExceptT.bindCont f (exec x p).1).run (exec x p).2).run = _
  rcases exec x p with ⟨_ | _, _⟩ <;> rfl

/-- What an action leaves before it fails is what its handler finds. -/
@[simp]
theorem exec_tryCatch (x : ExceptT ε (StateM Process) α)
    (handle : ε → ExceptT ε (StateM Process) α) (p : Process) :
    exec (tryCatch x handle) p =
      match exec x p with
      | (.ok a, p') => (.ok a, p')
      | (.error e, p') => exec (handle e) p' := by
  show (StateT.run (match (exec x p).1 with
    | .ok a => pure (.ok a)
    | .error e => handle e) (exec x p).2).run = _
  rcases exec x p with ⟨_ | _, _⟩ <;> rfl

@[simp]
theorem exec_adapt (g : ε → ε') (x : ExceptT ε (StateM Process) α) (p : Process) :
    exec (x.adapt g) p = ((exec x p).1.mapError g, (exec x p).2) := rfl

theorem exec_bind_eq_ok :
    exec (x >>= f) p = (.ok b, p') ↔
      ∃ a q, exec x p = (.ok a, q) ∧ exec (f a) q = (.ok b, p') := by
  rw [exec_bind]
  rcases exec x p with ⟨_ | _, _⟩ <;> simp

/-- An action of two steps fails as the first or, after the first, as the second. -/
theorem exec_bind_eq_error :
    exec (x >>= f) p = (.error e, p') ↔
      exec x p = (.error e, p') ∨ ∃ a q, exec x p = (.ok a, q) ∧ exec (f a) q = (.error e, p') := by
  rw [exec_bind]
  rcases exec x p with ⟨_ | _, _⟩ <;> simp

theorem ofExcept_bind_eq_ok {r : Except ε α} :
    exec (ofExcept r >>= f) p = (.ok b, p') ↔ ∃ a, r = .ok a ∧ exec (f a) p = (.ok b, p') := by
  cases r <;> simp

/-- A transitive relation between what was before and what is left holds across two steps if it
holds across each of them, whether or not the first one fails. -/
theorem rel_exec_bind {R : Process → Process → Prop}
    (htrans : ∀ {p q r}, R p q → R q r → R p r) (hx : R p (exec x p).2)
    (hf : ∀ a q, R p q → R q (exec (f a) q).2) : R p (exec (x >>= f) p).2 := by
  rw [exec_bind]
  rcases hrun : exec x p with ⟨e | a, q⟩
  · rwa [hrun] at hx
  · rw [hrun] at hx
    exact htrans hx (hf a q hx)

end Steps

/-! ## Primitive actions -/

variable {engine : Engine} {path : String} {stamp : Stamp} {p p' p'' : Process} {s : Statement}
  {rows : List VenueRow}

theorem exec_content_bind {β : Type} (file : String)
    (f : Except FileError String → ExceptT Failure (StateM Process) β) (p : Process) :
    exec ((host engine path stamp).content file >>= f) p = exec (f (p.disk.read file)) p := by
  rw [exec_bind]
  rfl

@[simp]
theorem exec_print (text : String) (p : Process) :
    exec (ExceptT.lift ((host engine path stamp).print text) : ExceptT Failure _ Unit) p =
      (.ok (), { p with stdout := p.stdout ++ text }) := rfl

@[simp]
theorem exec_stamp (p : Process) :
    exec (ExceptT.lift (host engine path stamp).stamp : ExceptT Failure _ Stamp) p =
      (.ok stamp, p) := rfl

/-- A file that cannot be written changes the disk, too. -/
theorem exec_write (file text : String) (p : Process) :
    exec ((host engine path stamp).write file text) p =
      ((p.disk.write file text).2.elim (.ok ()) (.error ∘ .unwritable),
        { p with disk := (p.disk.write file text).1 }) := by
  simp only [Host.write, host, writeFile, exec_adapt, exec_bind, exec_get, exec_set]
  cases (p.disk.write file text).2 <;> rfl

/-- All that opening the database can do: its directory is made, and then the file is opened unless
something stands against it. -/
theorem connect_cases (engine : Engine) (path : String) (p : Process) :
    (∃ e, exec (connect engine path) p =
      (.error e, { p with disk := (p.disk.makeParent path).1 })) ∨
    ∃ d place isNew, p.disk.makeParent path = (d, none) ∧ d.target path = .ok place ∧
      isNew? engine (d.files.get? place) = some isNew ∧
      exec (connect engine path) p = (.ok (), opened { p with disk := d } place isNew) := by
  simp only [connect, exec_bind, exec_get, exec_modify]
  rcases hmade : p.disk.makeParent path with ⟨d, _ | e⟩
  · simp only [exec_bind, exec_ofExcept]
    cases hplace : d.target path with
    | error e => exact .inl ⟨_, rfl⟩
    | ok place =>
      simp only [Except.mapError]
      cases hnew : isNew? engine (d.files.get? place) with
      | none => exact .inl ⟨_, rfl⟩
      | some isNew =>
        dsimp only
        cases engine.refusal? ⟨isNew, 0, none⟩ .connect with
        | some e => exact .inl ⟨_, rfl⟩
        | none => exact .inr ⟨d, place, isNew, rfl, hplace, hnew, rfl⟩
  · exact .inl ⟨_, rfl⟩

/-- The rows as the open transaction has them. -/
def transaction (p : Process) : Option Warehouse := p.connection.bind fun c ↦ c.2.transaction

/-- Nothing changes on the disk, and a transaction that is open stays open. -/
structure Holds (p p' : Process) : Prop where
  disk : p'.disk = p.disk
  transaction : p.transaction.isSome = true → p'.transaction.isSome = true

theorem Holds.refl (p : Process) : p.Holds p := ⟨rfl, id⟩

theorem Holds.trans (h : p.Holds p') (h' : p'.Holds p'') : p.Holds p'' :=
  ⟨h'.disk.trans h.disk, h'.transaction ∘ h.transaction⟩

/-- A statement that is not refused is answered from the stored rows. -/
theorem send_of_refusal?_eq_none {place : List String} {c : Connection}
    (hc : p.connection = some (place, c)) (h : engine.refusal? c s = none) :
    exec (send engine s) p = (.ok (c.answer (p.disk.rowsAt place) s), p.advance place c s) := by
  simp only [send, exec_bind, exec_get, hc, h, exec_set, exec_pure]

/-- All that a statement can do: it is refused and the process holds, or the process goes on as the
statement says. -/
theorem send_cases (engine : Engine) (s : Statement) (p : Process) :
    (∃ e connection, exec (send engine s) p = (.error e, { p with connection := connection }) ∧
      p.Holds { p with connection := connection }) ∨
    ∃ place c, p.connection = some (place, c) ∧
      exec (send engine s) p = (.ok (c.answer (p.disk.rowsAt place) s), p.advance place c s) := by
  cases hc : p.connection with
  | none =>
    refine .inl ⟨⟨"there is no connection"⟩, p.connection, ?_, .refl p⟩
    simp only [send, exec_bind, exec_get, hc, exec_throw]
    rw [← hc]
  | some connection =>
    obtain ⟨place, c⟩ := connection
    cases hrefused : engine.refusal? c s with
    | none => exact .inr ⟨place, c, rfl, send_of_refusal?_eq_none hc hrefused⟩
    | some e =>
      refine .inl ⟨e, some (place, { c with sent := c.sent + 1 }), ?_, ⟨rfl, ?_⟩⟩
      · simp only [send, exec_bind, exec_get, hc, hrefused, exec_set, exec_throw]
      · simp only [transaction, hc, Option.bind_some, imp_self]

theorem exec_ask (s : Statement) (p : Process) :
    exec ((host engine path stamp).ask s) p =
      ((exec (send engine s) p).1.mapError .database, (exec (send engine s) p).2) := rfl

/-- A statement that fails is refused. -/
theorem holds_of_ask_eq_error {e : Failure}
    (h : exec ((host engine path stamp).ask s) p = (.error e, p')) : p.Holds p' := by
  rw [exec_ask] at h
  obtain ⟨e, q, hsend, hq⟩ | ⟨place, c, hc, hsend⟩ := send_cases engine s p
  · rw [hsend] at h
    cases h
    exact hq
  · rw [hsend] at h
    cases h

/-- A statement that fails leaves the disk and the open transaction. -/
theorem holds_of_tell_eq_error {e : Failure}
    (h : exec ((host engine path stamp).tell s) p = (.error e, p')) : p.Holds p' := by
  obtain h | ⟨a, q, hq, h⟩ := exec_bind_eq_error.1 h
  · exact holds_of_ask_eq_error h
  · cases h

/-- What is answered is the answer of the open connection. -/
theorem ask_eq_ok (h : exec ((host engine path stamp).ask s) p = (.ok rows, p')) :
    ∃ place c, p.connection = some (place, c) ∧ rows = c.answer (p.disk.rowsAt place) s ∧
      p' = p.advance place c s := by
  rw [exec_ask] at h
  obtain ⟨e, q, hsend, -⟩ | ⟨place, c, hc, hsend⟩ := send_cases engine s p
  · rw [hsend] at h
    cases h
  · rw [hsend] at h
    cases h
    exact ⟨place, c, hc, rfl, rfl⟩

theorem tell_eq_ok (h : exec ((host engine path stamp).tell s) p = (.ok (), p')) :
    ∃ place c, p.connection = some (place, c) ∧ p' = p.advance place c s := by
  obtain ⟨rows, q, hask, hq⟩ := exec_bind_eq_ok.1 h
  cases hq
  obtain ⟨place, c, hc, -, rfl⟩ := ask_eq_ok hask
  exact ⟨place, c, hc, rfl⟩

/-! ## Inert and silent actions -/

section Silence

variable {ε α β : Type} {x : ExceptT ε (StateM Process) α} {f : α → ExceptT ε (StateM Process) β}

/-- The action changes nothing, whether or not it fails. -/
def Inert (x : ExceptT ε (StateM Process) α) : Prop := ∀ p, (exec x p).2 = p

/-- The action prints nothing, whether or not it fails. -/
def Silent (x : ExceptT ε (StateM Process) α) : Prop := ∀ p, (exec x p).2.stdout = p.stdout

theorem Inert.silent (h : Inert x) : Silent x := fun p ↦ congrArg stdout (h p)

theorem Silent.stdout_eq_of_exec (h : Silent x) {r : Except ε α} (hrun : exec x p = (r, p')) :
    p'.stdout = p.stdout := by
  rw [← h p, hrun]

theorem inert_pure (a : α) : Inert (pure a : ExceptT ε (StateM Process) α) := fun _ ↦ rfl

theorem inert_throw (e : ε) : Inert (throw e : ExceptT ε (StateM Process) α) := fun _ ↦ rfl

theorem inert_ofExcept (r : Except ε α) : Inert (ofExcept r : ExceptT ε (StateM Process) α) := by
  intro p
  rw [exec_ofExcept]

theorem inert_bind (hx : Inert x) (hf : ∀ a, Inert (f a)) : Inert (x >>= f) := fun p ↦
  rel_exec_bind (R := fun p q ↦ q = p) (fun h h' ↦ h'.trans h) (hx p) fun a q _ ↦ hf a q

theorem silent_bind (hx : Silent x) (hf : ∀ a, Silent (f a)) : Silent (x >>= f) := fun p ↦
  rel_exec_bind (R := fun p q ↦ q.stdout = p.stdout) (fun h h' ↦ h'.trans h) (hx p)
    fun a q _ ↦ hf a q

theorem silent_tryCatch {handle : ε → ExceptT ε (StateM Process) α} (hx : Silent x)
    (hhandle : ∀ e, Silent (handle e)) : Silent (tryCatch x handle) := by
  intro p
  have hfirst := hx p
  rw [exec_tryCatch]
  rcases h : exec x p with ⟨e | a, q⟩
  · rw [h] at hfirst
    exact (hhandle e q).trans hfirst
  · rwa [h] at hfirst

theorem silent_forM {f : α → ExceptT ε (StateM Process) Unit} (hf : ∀ a, Silent (f a))
    (l : List α) : Silent (l.forM f) := by
  induction l with
  | nil => exact (inert_pure ()).silent
  | cons a l ih => exact silent_bind (hf a) fun _ ↦ ih

end Silence

theorem inert_content (file : String) :
    Inert ((host engine path stamp).content file) := fun _ ↦ rfl

theorem silent_write (file text : String) : Silent ((host engine path stamp).write file text) := by
  intro p
  rw [exec_write]

theorem silent_writeAll (files : List (String × String)) :
    Silent ((host engine path stamp).writeAll files) :=
  silent_forM (fun _ ↦ silent_write _ _) files

theorem silent_connect : Silent (connect engine path) := by
  intro p
  obtain ⟨e, h⟩ | ⟨d, place, isNew, -, -, -, h⟩ := connect_cases engine path p
  · rw [h]
  · rw [h]
    rfl

theorem silent_ask (s : Statement) : Silent ((host engine path stamp).ask s) := by
  intro p
  rw [exec_ask]
  obtain ⟨e, connection, h, -⟩ | ⟨place, c, -, h⟩ := send_cases engine s p
  · rw [h]
  · rw [h]
    rfl

theorem silent_tell (s : Statement) : Silent ((host engine path stamp).tell s) :=
  silent_bind (silent_ask s) fun _ ↦ (inert_pure ()).silent

theorem silent_openWarehouse : Silent (host engine path stamp).openWarehouse :=
  silent_bind silent_connect fun _ ↦ silent_bind (silent_tell _) fun _ ↦ silent_tell _

theorem silent_venueRows (venues : List String) :
    Silent ((host engine path stamp).venueRows venues) := by
  unfold Host.venueRows
  split
  · exact (inert_pure []).silent
  · exact silent_bind (silent_tell _) fun _ ↦ silent_ask _

/-- A transaction prints nothing if what is done within it does not. -/
theorem silent_transact {act : ExceptT Failure (StateM Process) Unit} (hact : Silent act) :
    Silent ((host engine path stamp).transact act) :=
  silent_bind (silent_tell _) fun _ ↦ silent_bind
    (silent_tryCatch hact fun e ↦ silent_bind
      (silent_tryCatch (silent_tell _) fun _ ↦ (inert_pure ()).silent) fun _ ↦
        (inert_throw e).silent)
    fun _ ↦ silent_tell _

theorem silent_ingest (batch : List VenueRow) : Silent ((host engine path stamp).ingest batch) := by
  unfold Host.ingest
  split
  · exact (inert_pure ()).silent
  · exact silent_bind (inert_ofExcept _).silent fun _ ↦ silent_transact
      (silent_bind (silent_tell _) fun _ ↦ silent_forM (fun _ ↦ silent_tell _) batch)

end OracleMarkets.CommandLine.Process
