import OracleMarkets.Proofs.Database

/-!
# Runs of the program

A run that succeeds has answered, all its files are written, and then its report is printed.  Each
of these files holds what was written to it, unless a later one of them is the same file.
-/

namespace OracleMarkets.CommandLine

open Process

/-! ## Outcomes -/

/-- No failure has the exit code of a success. -/
theorem Failure.exitCode_ne_zero (f : Failure) : f.exitCode ≠ 0 := by
  unfold exitCode
  split <;> decide

/-- The envelope of an answer to the command `name`. -/
def Answer.envelope (a : Answer) (stamp : Stamp) (name : String) : Envelope :=
  enclose (.ofRequest stamp.requestId name stamp.generatedAt stamp.latencyMs) a

/-- The run succeeds, and the answer `a` to the command `name` is printed. -/
structure Outcome.Reports (x : Outcome) (stamp : Stamp) (o : Options) (name : String) (a : Answer) :
    Prop where
  exitCode : x.exitCode = 0
  stdout : x.stdout = report o (a.envelope stamp name)

/-- The header of an answer can always be made, as the id of a stamp is long enough. -/
theorem Stamp.header_eq_ok (stamp : Stamp) (name : String) :
    stamp.header name =
      .ok (.ofRequest stamp.requestId name stamp.generatedAt stamp.latencyMs) := by
  have h : EnvelopeHeader.isVersion EnvelopeHeader.currentVersion.toList = true := by decide
  simp [header, EnvelopeHeader.make, EnvelopeHeader.validate, EnvelopeHeader.ofRequest,
    stamp.requestId_valid, h, bind, Except.bind, Except.mapError, pure, Except.pure]

/-- Without warnings there is nothing for strict runs to fail for. -/
theorem checkStrict_envelope (o : Options) (stamp : Stamp) (name : String) {a : Answer}
    (h : o.strict = true → a.warnings = []) : checkStrict o (a.envelope stamp name) = .ok () := by
  unfold checkStrict
  cases hstrict : o.strict with
  | false => rfl
  | true =>
    rw [Answer.envelope, enclose, h hstrict]
    rfl

variable {engine : Engine} {databasePath : String} {stamp : Stamp} {p p' : Process}

/-! ## Files -/

section Files

variable {files : List (String × String)} {path : String} {place : List String}

theorem write_eq_ok {text : String}
    (h : exec ((host engine databasePath stamp).write path text) p = (.ok (), p')) :
    p.disk.write path text = (p'.disk, none) := by
  rw [exec_write] at h
  rcases hwrite : p.disk.write path text with ⟨d, _ | e⟩
  · rw [hwrite] at h
    cases h
    rfl
  · rw [hwrite] at h
    cases h

theorem exec_writeAll_cons (file : String × String) :
    exec ((host engine databasePath stamp).writeAll (file :: files)) p =
      exec ((host engine databasePath stamp).write file.1 file.2 >>= fun _ ↦
        (host engine databasePath stamp).writeAll files) p := rfl

/-- Files that are written one after another turn no way and remove no file. -/
theorem extends_of_writeAll
    (h : exec ((host engine databasePath stamp).writeAll files) p = (.ok (), p')) :
    p.disk.Extends p'.disk := by
  induction files generalizing p with
  | nil =>
    cases h
    exact .refl _
  | cons w files ih =>
    rw [exec_writeAll_cons] at h
    obtain ⟨⟨⟩, q, hfirst, hrest⟩ := exec_bind_eq_ok.1 h
    have hextends := p.disk.extends_write w.1 w.2
    rw [write_eq_ok hfirst] at hextends
    exact hextends.trans (ih hrest)

/-- A file holds its text as long as only other files are written. -/
theorem get?_of_writeAll
    (h : exec ((host engine databasePath stamp).writeAll files) p = (.ok (), p')) {text : String}
    (hplace : p.disk.target path = .ok place) (htext : p.disk.files.get? place = some (.text text))
    (hne : ∀ w ∈ files, p'.disk.target w.1 ≠ p'.disk.target path) :
    p'.disk.target path = .ok place ∧ p'.disk.files.get? place = some (.text text) := by
  induction files generalizing p with
  | nil =>
    cases h
    exact ⟨hplace, htext⟩
  | cons w files ih =>
    obtain ⟨hw, hne⟩ := List.forall_mem_cons.1 hne
    have hall := extends_of_writeAll h
    rw [exec_writeAll_cons] at h
    obtain ⟨⟨⟩, q, hfirst, hrest⟩ := exec_bind_eq_ok.1 h
    obtain ⟨place₁, hplace₁, hextends, hfiles⟩ := Disk.write_eq_ok (write_eq_ok hfirst)
    have hfile : p.disk.files.contains place = true := by
      rw [SortedMap.contains, htext]
      rfl
    have hfile₁ : q.disk.files.contains place₁ = true := by
      rw [SortedMap.contains, hfiles, if_pos rfl]
      rfl
    have hother : place ≠ place₁ := by
      rintro rfl
      rw [(extends_of_writeAll hrest).target hfile₁ hplace₁, hall.target hfile hplace] at hw
      exact hw rfl
    refine ih hrest (hextends.target hfile hplace) ?_ hne
    rw [hfiles, if_neg hother, htext]

/-- The first file that is written holds its text if the others are other files. -/
theorem read_of_writeAll {text : String}
    (h : exec ((host engine databasePath stamp).writeAll ((path, text) :: files)) p = (.ok (), p'))
    (hne : ∀ w ∈ files, p'.disk.target w.1 ≠ p'.disk.target path) :
    p'.disk.read path = .ok text := by
  rw [exec_writeAll_cons] at h
  obtain ⟨⟨⟩, q, hfirst, hrest⟩ := exec_bind_eq_ok.1 h
  obtain ⟨place, hplace, -, hfiles⟩ := Disk.write_eq_ok (write_eq_ok hfirst)
  obtain ⟨htarget, htext⟩ := get?_of_writeAll hrest hplace (by rw [hfiles, if_pos rfl]) hne
  exact Disk.read_of_target htarget htext

/-- Files of the working directory can be written one after another, and what could be written
before leads to the same place afterwards. -/
theorem exists_writeAll_eq (engine : Engine) (databasePath : String) (stamp : Stamp)
    (h : ∀ w ∈ files, Path.parent w.1 = [] ∧ ∃ place, p.disk.target w.1 = .ok place) :
    ∃ p', exec ((host engine databasePath stamp).writeAll files) p = (.ok (), p') ∧
      ∀ path place, p.disk.target path = .ok place → p'.disk.target path = .ok place := by
  induction files generalizing p with
  | nil => exact ⟨p, rfl, fun _ _ h ↦ h⟩
  | cons w files ih =>
    obtain ⟨⟨hparent, place, hplace⟩, hrest⟩ := List.forall_mem_cons.1 h
    obtain ⟨d, hwrite, hkeep⟩ := Disk.exists_write_eq hparent hplace w.2
    have hfirst : exec ((host engine databasePath stamp).write w.1 w.2) p =
        (.ok (), { p with disk := d }) := by
      rw [exec_write, hwrite]
      rfl
    have hrest : ∀ w ∈ files, Path.parent w.1 = [] ∧ ∃ place, d.target w.1 = .ok place := by
      intro v hv
      obtain ⟨hparent, place, hplace⟩ := hrest v hv
      exact ⟨hparent, place, hkeep v.1 place hplace⟩
    obtain ⟨p', hwritten, htarget⟩ := ih (p := { p with disk := d }) hrest
    refine ⟨p', ?_, fun path place hplace ↦ htarget path place (hkeep path place hplace)⟩
    rw [exec_writeAll_cons]
    exact exec_bind_eq_ok.2 ⟨(), _, hfirst, hwritten⟩

end Files

/-! ## Commands -/

/-- A snapshot is read only. -/
theorem inert_findRows_snapshot (path : String) (venues : List String) :
    Inert (findRows (host engine databasePath stamp) (some path) venues) :=
  inert_bind (inert_content path) fun _ ↦ inert_bind (inert_ofExcept _) fun _ ↦ inert_pure _

/-- Checking a market map changes nothing. -/
theorem inert_validate (marketMap : String) :
    Inert (validate (host engine databasePath stamp) marketMap) :=
  inert_bind (inert_content marketMap) fun _ ↦ inert_bind (inert_ofExcept _) fun _ ↦
    inert_bind (inert_ofExcept _) fun _ ↦ inert_pure _

/-- Comparing market maps changes neither of them. -/
theorem inert_diff (current generated : String) (overwriteEnabled : Bool) :
    Inert (diff (host engine databasePath stamp) current generated overwriteEnabled) :=
  inert_bind (inert_content current) fun _ ↦ inert_bind (inert_ofExcept _) fun _ ↦
    inert_bind (inert_content generated) fun _ ↦ inert_bind (inert_ofExcept _) fun _ ↦
      inert_bind (inert_ofExcept _) fun _ ↦ inert_pure _

/-- Showing a configuration changes nothing. -/
theorem inert_config (file : Option String) :
    Inert (config (host engine databasePath stamp) file) := by
  cases file with
  | some path =>
    exact inert_bind (inert_content path) fun _ ↦ inert_bind (inert_ofExcept _) fun _ ↦ inert_pure _
  | none => exact inert_bind (inert_ofExcept _) fun _ ↦ inert_pure _

theorem silent_findRows (snapshot : Option String) (venues : List String) :
    Silent (findRows (host engine databasePath stamp) snapshot venues) := by
  cases snapshot with
  | some path => exact (inert_findRows_snapshot path venues).silent
  | none => exact silent_bind silent_openWarehouse fun _ ↦ silent_venueRows venues

/-- No command prints: its answer is printed when it is done. -/
theorem silent_answer (c : Command) : Silent (answer (host engine databasePath stamp) c) := by
  cases c with
  | generate config snapshot out removalsOut =>
    exact silent_bind (inert_content config).silent fun _ ↦
      silent_bind (inert_ofExcept _).silent fun _ ↦ silent_bind (silent_findRows _ _) fun _ ↦
        silent_bind (inert_ofExcept _).silent fun _ ↦ silent_bind (silent_writeAll _) fun _ ↦
          (inert_pure _).silent
  | ingest rows =>
    exact silent_bind (inert_content rows).silent fun _ ↦
      silent_bind (inert_ofExcept _).silent fun _ ↦ silent_bind silent_openWarehouse fun _ ↦
        silent_bind (silent_ingest _) fun _ ↦ (inert_pure _).silent
  | validate marketMap => exact (inert_validate marketMap).silent
  | diff current generated overwriteEnabled =>
    exact (inert_diff current generated overwriteEnabled).silent
  | config file => exact (inert_config file).silent

/-! ## Runs -/

variable {o : Options} {c : Command} {a : Answer}

/-- A command that is answered is reported, and it fails then for its warnings at most. -/
theorem runCommand_of_answer
    (h : exec (answer (host engine databasePath stamp) c) p = (.ok a, p')) :
    exec (runCommand (host engine databasePath stamp) o c) p =
      (checkStrict o (a.envelope stamp c.name),
        { p' with stdout := p'.stdout ++ report o (a.envelope stamp c.name) }) := by
  rw [runCommand, exec_bind, h]
  dsimp only
  rw [exec_bind, exec_stamp]
  dsimp only
  rw [Stamp.header_eq_ok, exec_bind, exec_ofExcept]
  dsimp only
  rw [exec_bind, exec_print]
  dsimp only
  rw [exec_ofExcept]
  rfl

theorem runCommand_of_error {f : Failure}
    (h : exec (answer (host engine databasePath stamp) c) p = (.error f, p')) :
    exec (runCommand (host engine databasePath stamp) o c) p = (.error f, p') := by
  rw [runCommand, exec_bind, h]

namespace Session

variable {s : Session} {args : List String}

theorem run_eq {r : Except Failure Unit}
    (h : exec (CommandLine.run (host engine s.databasePath stamp) args) (.start s.disk) = (r, p)) :
    s.run stamp args engine = (.ofResult p.stdout r,
      { s with disk := p.disk, transcript := ⟨s.transcript.text ++ p.stdout⟩ }) := by
  rw [run, h]

theorem exec_run (hargs : Request.ofArguments? args = some (.run o c)) :
    exec (CommandLine.run (host engine databasePath stamp) args) p =
      exec (runCommand (host engine databasePath stamp) o c) p := by
  rw [CommandLine.run, hargs]

/-- The outcome of a run whose command is answered. -/
theorem run_of_answer (hargs : Request.ofArguments? args = some (.run o c))
    (ha : exec (answer (host engine s.databasePath stamp) c) (.start s.disk) = (.ok a, p)) :
    (s.run stamp args engine).1 =
        .ofResult (report o (a.envelope stamp c.name)) (checkStrict o (a.envelope stamp c.name)) ∧
      (s.run stamp args engine).2.disk = p.disk := by
  rw [run_eq ((exec_run hargs).trans (runCommand_of_answer ha))]
  refine ⟨congrArg (Outcome.ofResult · _) ?_, rfl⟩
  dsimp only
  rw [(silent_answer c).stdout_eq_of_exec ha, Process.start, String.empty_append]

/-- A run whose command fails tells this failure. -/
theorem run_of_error {f : Failure} (hargs : Request.ofArguments? args = some (.run o c))
    (ha : exec (answer (host engine s.databasePath stamp) c) (.start s.disk) = (.error f, p)) :
    (s.run stamp args engine).1 = ⟨p.stdout, some f⟩ ∧
      (s.run stamp args engine).2.disk = p.disk := by
  rw [run_eq ((exec_run hargs).trans (runCommand_of_error ha))]
  exact ⟨rfl, rfl⟩

/-- A run succeeds if the command is answered, without warnings if it is strict. -/
theorem reports_of_answer (hargs : Request.ofArguments? args = some (.run o c))
    (ha : exec (answer (host engine s.databasePath stamp) c) (.start s.disk) = (.ok a, p))
    (hquiet : o.strict = true → a.warnings = []) :
    (s.run stamp args engine).1.Reports stamp o c.name a := by
  rw [(run_of_answer hargs ha).1, checkStrict_envelope o stamp c.name hquiet]
  exact ⟨rfl, rfl⟩

/-- A run of a command succeeds only if the command is answered. -/
theorem exists_answer_of_exitCode (hargs : Request.ofArguments? args = some (.run o c))
    (h : (s.run stamp args engine).1.exitCode = 0) :
    ∃ a p, exec (answer (host engine s.databasePath stamp) c) (.start s.disk) = (.ok a, p) ∧
      (s.run stamp args engine).1.Reports stamp o c.name a ∧
      (s.run stamp args engine).2.disk = p.disk := by
  rcases ha : exec (answer (host engine s.databasePath stamp) c) (.start s.disk) with ⟨f | a, p⟩
  · rw [(run_of_error hargs ha).1] at h
    exact absurd h f.exitCode_ne_zero
  · obtain ⟨hrun, hdisk⟩ := run_of_answer hargs ha
    refine ⟨a, p, rfl, ⟨h, ?_⟩, hdisk⟩
    rw [hrun]
    cases checkStrict o (a.envelope stamp c.name) <;> rfl

/-! ## Ingestion -/

/-- A run that takes in the rows of a file stores them in the database. -/
theorem ingest_of_run {file : String}
    (hargs : Request.ofArguments? args = some (.run o (.ingest file)))
    (h : (s.run stamp args engine).1.exitCode = 0) :
    ∃ batch place, decodeRows file (s.disk.read file) = .ok batch ∧
      (s.disk.makeParent s.databasePath).1.target s.databasePath = .ok place ∧
      (s.run stamp args engine).2.disk.target s.databasePath = .ok place ∧
      (s.disk.rowsAt place).ingest batch = .ok ((s.run stamp args engine).2.disk.rowsAt place) := by
  obtain ⟨a, p, ha, -, hdisk⟩ := exists_answer_of_exitCode hargs h
  rw [answer, CommandLine.ingest, exec_content_bind] at ha
  obtain ⟨batch, hbatch, ha⟩ := ofExcept_bind_eq_ok.1 ha
  obtain ⟨⟨⟩, q, hopen, ha⟩ := exec_bind_eq_ok.1 ha
  obtain ⟨⟨⟩, q', hingest, ha⟩ := exec_bind_eq_ok.1 ha
  cases ha
  obtain ⟨place, hopened⟩ := hasOpened_of_openWarehouse hopen
  obtain ⟨htarget, hrows⟩ := ingest_eq_ok hopened hingest
  rw [hdisk]
  exact ⟨batch, place, hbatch, hopened.leads, htarget, hrows⟩

end Session

end OracleMarkets.CommandLine
