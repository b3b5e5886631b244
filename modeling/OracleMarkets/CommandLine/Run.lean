import OracleMarkets.CommandLine.Host
import OracleMarkets.CommandLine.Report
import OracleMarkets.Generation
import OracleMarkets.MarketDiff

/-!
# Running commands

A command reads what it needs, does what it is asked for and answers.  The envelope of the answer is
made last, when all that the command changes has been changed, and then it is printed.
-/

namespace OracleMarkets.CommandLine

/-- What a command answers. -/
structure Answer where
  data : Value
  warnings : List String

def Answer.ofFields (fields : List (String × Value)) (warnings : List String) : Answer :=
  ⟨(Value.object fields).sortKeys, warnings⟩

def fileText (v : Value) : String := Json.pretty v ++ "\n"

/-! ## Reading files

Each of these takes what reading the file gave. -/

def decodeFile {α : Type} (decode : Value → Option α) (path : String)
    (content : Except FileError String) : Except Failure α := do
  let text ← content.mapError (.unreadable path)
  match (Json.read? text).bind decode with
  | some a => return a
  | none => throw .undecodable

def decodeGenerator (config : String) (content : Except FileError String) :
    Except Failure Generator := do
  let c ← (Config.ofFile config content).mapError .config
  (Generator.ofConfig c).mapError .pipeline

def decodeRows (rows : String) (content : Except FileError String) :
    Except Failure (List VenueRow) :=
  decodeFile (Value.list? VenueRow.decode?) rows content

/-! ## Commands -/

variable {m : Type → Type} [Monad m] (h : Host m)

/-- The rows that a market map is made of, from a snapshot or from the warehouse. -/
def findRows (snapshot : Option String) (venues : List String) :
    ExceptT Failure m (List VenueRow) := do
  match snapshot with
  | some path =>
    let s ← ofExcept ((Snapshot.ofFile (← h.content path)).mapError .store)
    return s.venueRows venues
  | none =>
    h.openWarehouse
    h.venueRows venues

/-- The files that are made of a generated map, in the order in which they are written. -/
def artifacts (g : Generated) (out removalsOut : Option String) : List (String × String) :=
  let logs := Value.object
    [("removals", DropLog.encode Feed.encode g.removals),
      ("exclusions", DropLog.encode Market.encode g.exclusions)]
  (out.map fun path ↦ (path, fileText g.marketMap.encode)).toList ++
    (removalsOut.map fun path ↦ (path, fileText logs.sortKeys)).toList

/-- What is told of a generated map.  The map itself is told unless it is written to a file. -/
def summarize (g : Generated) (out removalsOut : Option String) : Answer :=
  let m := g.marketMap
  let shown := match out with
    | some path => ("market_map_path", Value.text path)
    | none => ("market_map", m.encode)
  .ofFields
    ([("markets", .size m.size), ("enabled_markets", .size m.enabledCount),
      ("removed_feeds", .size (DropLog.count g.removals)),
      ("excluded", .size (DropLog.count g.exclusions)), ("tickers", .list (m.keys.map .text)),
      shown] ++ (removalsOut.map fun path ↦ ("removals_path", Value.text path)).toList)
    (if m.isEmpty then ["generated market map is empty"] else [])

/-- Makes a market map, and writes it to the files that are asked for. -/
def generate (config : String) (snapshot out removalsOut : Option String) :
    ExceptT Failure m Answer := do
  let g ← ofExcept (decodeGenerator config (← h.content config))
  let rows ← findRows h snapshot g.config.providerNames
  let generated ← ofExcept ((g.generate fun _ ↦ rows).mapError .pipeline)
  h.writeAll (artifacts generated out removalsOut)
  return summarize generated out removalsOut

/-- Takes the rows of a file into the warehouse. -/
def ingest (rows : String) : ExceptT Failure m Answer := do
  let batch ← ofExcept (decodeRows rows (← h.content rows))
  h.openWarehouse
  h.ingest batch
  return .ofFields [("ingested", .size batch.length), ("db_path", .text h.databasePath)]
    (if batch.isEmpty then [s!"{rows} contains no rows"] else [])

def validate (marketMap : String) : ExceptT Failure m Answer := do
  let m ← ofExcept (decodeFile MarketMap.decode? marketMap (← h.content marketMap))
  ofExcept ((MarketMap.validate m).mapError .validation)
  return .ofFields [("valid", .bool true), ("markets", .size m.size),
    ("enabled_markets", .size (MarketMap.enabledCount m))] []

/-- Tells how one market map becomes another, which has to be valid. -/
def diff (current generated : String) (overwriteEnabled : Bool) : ExceptT Failure m Answer := do
  let current ← ofExcept (decodeFile MarketMap.decode? current (← h.content current))
  let generated ← ofExcept (decodeFile MarketMap.decode? generated (← h.content generated))
  ofExcept ((MarketMap.validate generated).mapError .validation)
  let d := MarketDiff.between ⟨overwriteEnabled⟩ current generated
  let retained := ",".intercalate d.retained
  return .ofFields
    [("noop", .bool d.isNoop), ("created", .size d.created.length),
      ("updated", .size d.updated.length), ("unchanged", .size d.unchanged.length),
      ("diff", d.encode)]
    (if d.retained.isEmpty then []
      else [s!"{d.retained.length} deployed markets are absent from the generated map " ++
        s!"and are retained: {retained}"])

/-- A configuration in full, and where it is from. -/
def showConfig (source : String) (c : Config) : Answer :=
  .ofFields [("source", .text source), ("config", c.encode)] []

/-- Checks a configuration, or the standard one, and shows it in full. -/
def config (file : Option String) : ExceptT Failure m Answer := do
  match file with
  | some path =>
    let c ← ofExcept ((Config.ofFile path (← h.content path)).mapError .config)
    return showConfig path c
  | none =>
    ofExcept (Config.standard.validate.mapError .validation)
    return showConfig "defaults" .standard

def answer : Command → ExceptT Failure m Answer
  | .generate config snapshot out removalsOut => generate h config snapshot out removalsOut
  | .ingest rows => ingest h rows
  | .validate marketMap => validate h marketMap
  | .diff current generated overwriteEnabled => diff h current generated overwriteEnabled
  | .config file => config h file

/-! ## Runs -/

/-- The header of an answer to the command `name`, if the stamp makes a valid one. -/
def Stamp.header (stamp : Stamp) (name : String) : Except Failure EnvelopeHeader :=
  (EnvelopeHeader.make stamp.requestId name stamp.generatedAt stamp.latencyMs).mapError .validation

def enclose (header : EnvelopeHeader) (a : Answer) : Envelope :=
  ⟨a.warnings.foldl EnvelopeHeader.pushWarning header, a.data, []⟩

/-- Where warnings and errors count as failures, an envelope has none of them. -/
def checkStrict (o : Options) (e : Envelope) : Except Failure Unit :=
  let warnings := e.header.warnings.length
  let errors := e.errors.length
  if o.strict && 0 < warnings + errors then .error (.strict warnings errors) else .ok ()

/-- Runs a command and prints its answer.  A strict run prints the answer, too, before it fails. -/
def runCommand (o : Options) (c : Command) : ExceptT Failure m Unit := do
  let a ← answer h c
  let stamp ← ExceptT.lift h.stamp
  let header ← ofExcept (stamp.header c.name)
  let e := enclose header a
  ExceptT.lift (h.print (report o e))
  ofExcept (checkStrict o e)

def helpText : String :=
  "\n".intercalate
    ["Usage: marketmap [--format table|json] [--pretty] [--strict] COMMAND", "",
      "generate --config FILE [--snapshot FILE] [--out FILE] [--removals-out FILE]",
      "ingest ROWS", "validate MARKET_MAP",
      "diff --current FILE --generated FILE [--overwrite-enabled]", "config [--config FILE]", ""]

def versionText : String := "marketmap 0.1.0\n"

/-- Runs the program with arguments. -/
def run (args : List String) : ExceptT Failure m Unit :=
  match Request.ofArguments? args with
  | none => throw .usage
  | some .help => ExceptT.lift (h.print helpText)
  | some .version => ExceptT.lift (h.print versionText)
  | some (.run o c) => runCommand h o c

end OracleMarkets.CommandLine
