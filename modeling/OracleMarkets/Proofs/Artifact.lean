import OracleMarkets.Proofs.MarketDiff
import OracleMarkets.Proofs.NormalPairs
import OracleMarkets.Proofs.Session

/-!
# What is made of a generated file

The file that a generation writes is the text of the market map, and it is read back as this map
(`decode?_read?_of_generate`).  So the program takes what it has made: the check of the file accepts
it, and its comparison with itself finds nothing to do.
-/

namespace OracleMarkets.CommandLine

open Process

variable {config : String} {content : Except FileError String} {g : Generator}

/-! ## Reading files -/

/-- The line end after a written value is blank. -/
theorem blank_lineEnd : Json.Blank "\n".toList := List.forall_mem_singleton.2 rfl

/-- A configuration that a file is read as is what some document is read as. -/
theorem isDecoded_of_ofFile {c : Config}
    (h : Config.ofFile config content = .ok c) : c.IsDecoded := by
  obtain ⟨text, -, hc, -⟩ := Config.ofFile_eq_ok_iff.1 h
  unfold Config.ofText at hc
  split at hc
  · split at hc
    · next hread =>
      cases hc
      obtain ⟨v, -, hv⟩ := Option.bind_eq_some_iff.1 hread
      exact ⟨v, hv⟩
    · cases hc
  · split at hc
    · next hread =>
      cases hc
      obtain ⟨v, -, hv⟩ := Option.bind_eq_some_iff.1 hread
      exact ⟨v, hv⟩
    · cases hc

/-- A configuration that a file is read as is accepted. -/
theorem validate_of_ofFile {c : Config}
    (h : Config.ofFile config content = .ok c) : c.validate = .ok () := by
  obtain ⟨_, -, -, hvalid⟩ := Config.ofFile_eq_ok_iff.1 h
  exact hvalid

/-- The generator of a file is the standard one of a configuration that is read. -/
theorem exists_ofConfig_of_decodeGenerator (h : decodeGenerator config content = .ok g) :
    ∃ c : Config, c.IsDecoded ∧ Generator.ofConfig c = .ok g := by
  obtain ⟨c, hc, hg⟩ := bind_eq_ok.1 h
  exact ⟨c, isDecoded_of_ofFile (mapError_eq_ok.1 hc), mapError_eq_ok.1 hg⟩

theorem decodeFile_eq_ok {α : Type} {decode : Value → Option α} {path text : String} {a : α}
    (ha : (Json.read? text).bind decode = some a) : decodeFile decode path (.ok text) = .ok a := by
  refine bind_eq_ok.2 ⟨text, rfl, ?_⟩
  rw [ha]
  rfl

/-! ## Commands -/

variable {engine : Engine} {databasePath : String} {stamp : Stamp} {p p' : Process}

/-- Where the rows of a generation are from: a snapshot, or the database. -/
def IsSource (d : Disk) (databasePath : String) (snapshot : Option String) (source : RowSource) :
    Prop :=
  match snapshot with
  | some path => ∃ s, Snapshot.ofFile (d.read path) = .ok s ∧ source = s.venueRows
  | none => ∃ place, (d.makeParent databasePath).1.target databasePath = .ok place ∧
      source = (d.rowsAt place).venueRows

/-- Rows that are found are those of a source. -/
theorem findRows_eq_ok {snapshot : Option String} {venues : List String} {rows : List VenueRow}
    (h : exec (findRows (host engine databasePath stamp) snapshot venues) p = (.ok rows, p')) :
    ∃ source, IsSource p.disk databasePath snapshot source ∧ rows = source venues := by
  cases snapshot with
  | some path =>
    rw [findRows, exec_content_bind] at h
    obtain ⟨s, hs, h⟩ := ofExcept_bind_eq_ok.1 h
    cases h
    exact ⟨s.venueRows, ⟨s, mapError_eq_ok.1 hs, rfl⟩, rfl⟩
  | none =>
    obtain ⟨⟨⟩, q, hopen, h⟩ := exec_bind_eq_ok.1 h
    obtain ⟨place, hopened⟩ := hasOpened_of_openWarehouse hopen
    exact ⟨_, ⟨place, hopened.leads, rfl⟩, (venueRows_eq_ok hopened h).1⟩

/-- A generation is told of once the configuration and the rows are read, the map is made and its
files are written. -/
theorem exists_generated_of_generate {snapshot out removalsOut : Option String} {a : Answer}
    (h : exec (generate (host engine databasePath stamp) config snapshot out removalsOut) p =
      (.ok a, p')) :
    ∃ (g : Generator) (source : RowSource) (made : Generated) (q : Process),
      decodeGenerator config (p.disk.read config) = .ok g ∧
        IsSource p.disk databasePath snapshot source ∧ g.generate source = .ok made ∧
        exec ((host engine databasePath stamp).writeAll (artifacts made out removalsOut)) q =
          (.ok (), p') ∧
        a = summarize made out removalsOut := by
  rw [generate, exec_content_bind] at h
  obtain ⟨g, hg, h⟩ := ofExcept_bind_eq_ok.1 h
  obtain ⟨rows, q, hrows, h⟩ := exec_bind_eq_ok.1 h
  obtain ⟨made, hmade, h⟩ := ofExcept_bind_eq_ok.1 h
  obtain ⟨⟨⟩, q', hwritten, h⟩ := exec_bind_eq_ok.1 h
  cases h
  obtain ⟨source, hsource, rfl⟩ := findRows_eq_ok hrows
  exact ⟨g, source, made, q, hg, hsource, mapError_eq_ok.1 hmade, hwritten, rfl⟩

/-- A configuration is shown once its file is read, and the standard one if there is no file. -/
theorem exists_shown_of_config {file : Option String} {a : Answer}
    (h : exec (CommandLine.config (host engine databasePath stamp) file) p = (.ok a, p')) :
    ∃ source c, a = showConfig source c ∧
      (∀ path, file = some path → Config.ofFile path (p.disk.read path) = .ok c) ∧
      (file = none → c = .standard) := by
  cases file with
  | some path =>
    rw [CommandLine.config, exec_content_bind] at h
    obtain ⟨c, hc, h⟩ := ofExcept_bind_eq_ok.1 h
    cases h
    exact ⟨path, c, rfl, fun _ hpath ↦ Option.some.inj hpath ▸ mapError_eq_ok.1 hc, nofun⟩
  | none =>
    obtain ⟨⟨⟩, -, h⟩ := ofExcept_bind_eq_ok.1 h
    cases h
    exact ⟨"defaults", .standard, rfl, nofun, fun _ ↦ rfl⟩

/-- What is told of a market map that is accepted. -/
def acceptance (m : MarketMap) : Answer :=
  .ofFields [("valid", .bool true), ("markets", .size m.size),
    ("enabled_markets", .size m.enabledCount)] []

/-- What is told of a market map that takes the place of itself. -/
def noChange (m : MarketMap) : Answer :=
  .ofFields [("noop", .bool true), ("created", .size 0), ("updated", .size 0),
    ("unchanged", .size m.size), ("diff", MarketDiff.encode ⟨[], [], m.keys, []⟩)] []

/-- Checking a file tells the numbers of its map, if the map is accepted. -/
theorem validate_eq_acceptance {path : String} {m : MarketMap}
    (hread : decodeFile MarketMap.decode? path (p.disk.read path) = .ok m)
    (hm : m.validate = .ok ()) :
    exec (validate (host engine databasePath stamp) path) p = (.ok (acceptance m), p) := by
  rw [validate, exec_content_bind]
  exact ofExcept_bind_eq_ok.2 ⟨m, hread, ofExcept_bind_eq_ok.2 ⟨(), mapError_eq_ok.2 hm, rfl⟩⟩

/-- Nothing changes from a map to itself, with either flag. -/
theorem diff_self_eq_noChange {path : String} {m : MarketMap}
    (hread : decodeFile MarketMap.decode? path (p.disk.read path) = .ok m)
    (hm : m.validate = .ok ()) (overwriteEnabled : Bool) :
    exec (diff (host engine databasePath stamp) path path overwriteEnabled) p =
      (.ok (noChange m), p) := by
  have hsize : m.keys.length = m.size := List.length_map _
  rw [diff, exec_content_bind]
  refine ofExcept_bind_eq_ok.2 ⟨m, hread, ?_⟩
  rw [exec_content_bind]
  refine ofExcept_bind_eq_ok.2 ⟨m, hread, ofExcept_bind_eq_ok.2 ⟨(), mapError_eq_ok.2 hm, ?_⟩⟩
  rw [MarketDiff.between_self, noChange, ← hsize]
  rfl

/-! ## The file of a generation -/

/-- The file at `path` is taken as the market map `m`: it is read as `m`, its check accepts it and
tells the numbers of `m`, and its comparison with itself finds all markets of `m` unchanged. -/
structure Session.Takes (s : Session) (path : String) (m : MarketMap) : Prop where
  reads : decodeFile MarketMap.decode? path (s.disk.read path) = .ok m
  validate : ∀ engine stamp args o, Request.ofArguments? args = some (.run o (.validate path)) →
    (s.run stamp args engine).1.Reports stamp o "validate" (acceptance m)
  diff : ∀ engine stamp args o overwriteEnabled,
    Request.ofArguments? args = some (.run o (.diff path path overwriteEnabled)) →
      (s.run stamp args engine).1.Reports stamp o "diff" (noChange m)

theorem Session.takes_of_read {s : Session} {path : String} {m : MarketMap}
    (hread : decodeFile MarketMap.decode? path (s.disk.read path) = .ok m)
    (hm : m.validate = .ok ()) : s.Takes path m where
  reads := hread
  validate _ _ _ _ hargs :=
    reports_of_answer hargs (validate_eq_acceptance (p := .start s.disk) hread hm) fun _ ↦ rfl
  diff _ _ _ _ overwriteEnabled hargs :=
    reports_of_answer hargs
      (diff_self_eq_noChange (p := .start s.disk) hread hm overwriteEnabled) fun _ ↦ rfl

/-! ## A small session -/

/-- The document of the small configuration. -/
def smallDocument : Value :=
  .object [("providers", .object [("kraken", .object [])]), ("min_cex_provider_count", .count 1)]

/-- The document of a row of one venue without volume or depth. -/
def smallRowDocument (base quote : String) (baseRank quoteRank : UInt64) : Value :=
  .object [("target_base", .text base), ("target_quote", .text quote),
    ("off_chain_ticker", .text (base ++ "-" ++ quote)), ("provider_name", .text "kraken"),
    ("metadata_json", .text ("from " ++ base ++ "-" ++ quote)), ("base_rank", .count baseRank),
    ("quote_rank", .count quoteRank)]

/-- The document of the small rows. -/
def smallRowsDocument : Value :=
  .list [smallRowDocument "USDT" "USD" 3 0, smallRowDocument "usdt" "eth" 3 2]

/-- A session in which a configuration and rows have been written. -/
def Session.small : Session where
  disk :=
    { files := .ofList [(["work", "config.json"], .text (fileText smallDocument)),
        (["work", "rows.json"], .text (fileText smallRowsDocument))]
      directories := .ofList [Disk.workingDirectory] }
  databasePath := "venues.duckdb"
  transcript := .empty

def Stamp.small : Stamp where
  requestId := "request-1"
  generatedAt := ⟨2024, 1, 1, 0, 0, 0, 0, by decide, by decide⟩
  latencyMs := 0
  requestId_valid := by decide

/-- The arguments that generate a market map of the rows. -/
def smallArguments : List String :=
  ["generate", "--config", "config.json", "--snapshot", "rows.json", "--out", "map.json",
    "--removals-out", "removals.json"]

theorem ofArguments?_smallArguments : Request.ofArguments? smallArguments =
    some (.run ⟨.json, false, false⟩
      (.generate "config.json" (some "rows.json") (some "map.json") (some "removals.json"))) := by
  decide +kernel

theorem writable_smallDocument : smallDocument.Writable Json.maxDepth := by
  refine Value.writable_object ?_
  simp only [List.forall_mem_cons]
  refine ⟨Value.writable_object ?_, Value.writable_count 1, List.forall_mem_nil _⟩
  simp only [List.forall_mem_cons]
  exact ⟨Value.writable_object nofun, List.forall_mem_nil _⟩

theorem writable_smallRowDocument {d : Nat} (base quote : String) (baseRank quoteRank : UInt64) :
    (smallRowDocument base quote baseRank quoteRank).Writable (d + 1) := by
  refine Value.writable_object ?_
  simp only [List.forall_mem_cons]
  exact ⟨.text _, .text _, .text _, .text _, .text _, Value.writable_count _,
    Value.writable_count _, List.forall_mem_nil _⟩

theorem writable_smallRowsDocument : smallRowsDocument.Writable Json.maxDepth := by
  refine .list ?_
  simp only [List.forall_mem_cons]
  exact ⟨writable_smallRowDocument _ _ _ _, writable_smallRowDocument _ _ _ _,
    List.forall_mem_nil _⟩

theorem ofFile_small :
    Config.ofFile "config.json" (Session.small.disk.read "config.json") = .ok .small := by
  have htarget : Session.small.disk.target "config.json" = .ok ["work", "config.json"] := by
    decide +kernel
  have htext : Session.small.disk.read "config.json" = .ok (fileText smallDocument) :=
    Disk.read_of_target htarget rfl
  have hread : (Json.read? (fileText smallDocument)).bind Config.decode? = some .small := by
    rw [fileText, Json.read?_pretty writable_smallDocument blank_lineEnd]
    rfl
  have hjson : Config.isYamlName "config.json" = false := by decide +kernel
  rw [htext]
  refine bind_eq_ok.2 ⟨_, rfl, bind_eq_ok.2 ⟨.small, ?_, ?_⟩⟩
  · rw [Config.ofText, hjson, hread]
    rfl
  · rw [Config.validate_small]
    rfl

theorem decodeGenerator_small :
    decodeGenerator "config.json" (Session.small.disk.read "config.json") = .ok .small := by
  rw [decodeGenerator, ofFile_small]
  exact bind_eq_ok.2
    ⟨.small, rfl, mapError_eq_ok.2 (Generator.ofConfig_of_validate Config.validate_small)⟩

theorem read_small_rows :
    Session.small.disk.read "rows.json" = .ok (fileText smallRowsDocument) := by
  have htarget : Session.small.disk.target "rows.json" = .ok ["work", "rows.json"] := by
    decide +kernel
  exact Disk.read_of_target htarget rfl

theorem snapshot_small :
    Snapshot.ofFile (Session.small.disk.read "rows.json") = .ok ⟨smallRows⟩ := by
  have hdecode : (Json.read? (fileText smallRowsDocument)).bind Snapshot.decode? =
      some ⟨smallRows⟩ := by
    rw [fileText, Json.read?_pretty writable_smallRowsDocument blank_lineEnd]
    rfl
  rw [read_small_rows]
  refine bind_eq_ok.2 ⟨_, rfl, ?_⟩
  rw [hdecode]
  rfl

theorem exists_generate_smallRows :
    ∃ made, Generator.small.generate (Snapshot.mk smallRows).venueRows = .ok made ∧
      made.marketMap.contains "ETH/USD" = true := by
  obtain ⟨made, hrun, hmade⟩ := map_eq_ok.1 generate_smallRows
  obtain ⟨market, hmarket, -⟩ := Option.map_eq_some_iff.1 hmade
  refine ⟨made, hrun, ?_⟩
  rw [SortedMap.contains, hmarket]
  rfl

/-- The run of these arguments succeeds, and it writes two files. -/
theorem Session.exitCode_run_small (engine : Engine) {made : Generated}
    (hmade : Generator.small.generate (Snapshot.mk smallRows).venueRows = .ok made) :
    (small.run .small smallArguments engine).1.exitCode = 0 ∧
      ∀ path ∈ some "removals.json", (small.run .small smallArguments engine).2.disk.target path ≠
        (small.run .small smallArguments engine).2.disk.target "map.json" := by
  have hmap : small.disk.target "map.json" = .ok ["work", "map.json"] := by decide +kernel
  have hremovals : small.disk.target "removals.json" = .ok ["work", "removals.json"] := by
    decide +kernel
  have hwritable : ∀ w ∈ artifacts made (some "map.json") (some "removals.json"),
      Path.parent w.1 = [] ∧ ∃ place, small.disk.target w.1 = .ok place := by
    show ∀ w ∈ [("map.json", _), ("removals.json", _)], _
    simp only [List.forall_mem_cons]
    exact ⟨⟨by decide +kernel, _, hmap⟩, ⟨by decide +kernel, _, hremovals⟩, List.forall_mem_nil _⟩
  obtain ⟨p, hwritten, hkeep⟩ := exists_writeAll_eq engine small.databasePath .small
    (p := .start small.disk) hwritable
  have hanswer : exec (answer (host engine small.databasePath .small)
      (.generate "config.json" (some "rows.json") (some "map.json") (some "removals.json")))
      (.start small.disk) = (.ok (summarize made (some "map.json") (some "removals.json")), p) := by
    rw [answer, generate, exec_content_bind]
    refine ofExcept_bind_eq_ok.2 ⟨.small, decodeGenerator_small, ?_⟩
    refine exec_bind_eq_ok.2 ⟨_, _, ?_, ofExcept_bind_eq_ok.2 ⟨made, mapError_eq_ok.2 hmade,
      exec_bind_eq_ok.2 ⟨(), p, hwritten, rfl⟩⟩⟩
    rw [findRows, exec_content_bind]
    exact ofExcept_bind_eq_ok.2 ⟨⟨smallRows⟩, mapError_eq_ok.2 snapshot_small, rfl⟩
  have hreports := reports_of_answer ofArguments?_smallArguments hanswer
    fun hstrict ↦ absurd hstrict Bool.false_ne_true
  refine ⟨hreports.exitCode, fun path hpath ↦ ?_⟩
  cases hpath
  rw [(run_of_answer ofArguments?_smallArguments hanswer).2, hkeep _ _ hmap, hkeep _ _ hremovals]
  decide

/-! ## Generations -/

/-- A run that generates a market map and writes it to a file, with other files for all else that it
writes, tells the numbers of this map, and the program takes the file as this map afterwards. -/
theorem Session.takes_of_run {s : Session} {args : List String} {o : Options}
    {snapshot : Option String} {out : String} {removalsOut : Option String}
    (hargs : Request.ofArguments? args =
      some (.run o (.generate config snapshot (some out) removalsOut)))
    (hrun : (s.run stamp args engine).1.exitCode = 0)
    (hother : ∀ path ∈ removalsOut, (s.run stamp args engine).2.disk.target path ≠
      (s.run stamp args engine).2.disk.target out) :
    ∃ (g : Generator) (source : RowSource) (made : Generated) (rest : List (String × Value)),
      decodeGenerator config (s.disk.read config) = .ok g ∧
        IsSource s.disk s.databasePath snapshot source ∧
        g.generate source = .ok made ∧
        (s.run stamp args engine).1.Reports stamp o "generate"
          (summarize made (some out) removalsOut) ∧
        (summarize made (some out) removalsOut).data =
          (Value.object (("markets", .size made.marketMap.size) ::
            ("enabled_markets", .size made.marketMap.enabledCount) :: rest)).sortKeys ∧
        (s.run stamp args engine).2.Takes out made.marketMap := by
  obtain ⟨a, p, ha, hreports, hdisk⟩ := exists_answer_of_exitCode hargs hrun
  obtain ⟨g, source, made, q, hg, hsource, hmade, hwritten, rfl⟩ := exists_generated_of_generate ha
  obtain ⟨c, hc, hcg⟩ := exists_ofConfig_of_decodeGenerator hg
  have hfile : (s.run stamp args engine).2.disk.read out =
      .ok (fileText made.marketMap.encode) := by
    rw [hdisk] at hother ⊢
    refine read_of_writeAll hwritten fun w hw ↦ ?_
    obtain ⟨path, hpath, rfl⟩ := Option.map_eq_some_iff.1 (Option.mem_toList.1 hw)
    exact hother path hpath
  have hread : decodeFile MarketMap.decode? out ((s.run stamp args engine).2.disk.read out) =
      .ok made.marketMap := by
    rw [hfile]
    exact decodeFile_eq_ok (decode?_read?_of_generate hc hcg hmade blank_lineEnd)
  exact ⟨g, source, made, _, hg, hsource, hmade, hreports, rfl,
    takes_of_read hread (hasNormalPairs_of_generate hc hcg hmade).1⟩

/-- The small rows make a map with a market of ether, which is written and taken as this map. -/
theorem Session.takes_of_run_small :
    ∃ made, Generator.small.generate (Snapshot.mk smallRows).venueRows = .ok made ∧
      made.marketMap.contains "ETH/USD" = true ∧
      (small.run .small smallArguments).1.exitCode = 0 ∧
      (small.run .small smallArguments).2.Takes "map.json" made.marketMap := by
  obtain ⟨made, hmade, hmarket⟩ := exists_generate_smallRows
  obtain ⟨hexit, hother⟩ := exitCode_run_small .reliable hmade
  obtain ⟨g, source, told, _, hg, ⟨snapshot, hsnapshot, rfl⟩, htold, -, -, htakes⟩ :=
    takes_of_run ofArguments?_smallArguments hexit hother
  -- The map that the run tells of is the one that is generated of the rows.
  obtain rfl : g = .small := Except.ok.inj (hg.symm.trans decodeGenerator_small)
  obtain rfl : snapshot = ⟨smallRows⟩ := Except.ok.inj (hsnapshot.symm.trans snapshot_small)
  obtain rfl : told = made := Except.ok.inj (htold.symm.trans hmade)
  exact ⟨told, hmade, hmarket, hexit, htakes⟩

end OracleMarkets.CommandLine
