import OracleMarkets.CommandLine.Run
import OracleMarkets.Disk

/-!
# Sessions

In a session the program is run again and again over the same disk.  Each run finds what those
before it left, also what a run did before it failed.  Rows that a run has not committed are gone
when it ends.
-/

namespace OracleMarkets.CommandLine

/-- The path of the warehouse, by the variables `MARKETMAP_HOME` and `HOME`.  The first counts
unless it is empty. -/
def databasePath (marketmapHome home : Option String) : String :=
  let root := match marketmapHome.filter (· ≠ "") with
    | some root => root
    | none => (home.map fun home ↦ Path.join home ".marketmap").getD ".marketmap"
  Path.join (Path.join root "cache") "venues.duckdb"

/-! ## Processes -/

/-- What a run of the program has done so far. -/
structure Process where
  disk : Disk
  /-- The connection to the database, and where the file of the database is. -/
  connection : Option (List String × Connection)
  stdout : String

namespace Process

def start (d : Disk) : Process := ⟨d, none, ""⟩

/-- What an action gives, and what it leaves. -/
def exec {ε α : Type} (x : ExceptT ε (StateM Process) α) (p : Process) : Except ε α × Process :=
  (x.run.run p).run

def readFile (path : String) : StateM Process (Except FileError String) := do
  return (← get).disk.read path

def writeFile (path text : String) : ExceptT FileError (StateM Process) Unit := do
  let p ← get
  let (d, error) := p.disk.write path text
  set { p with disk := d }
  error.forM throw

/-- Whether the file at a place is made into a database when it is opened.  A file with a text is no
database and cannot be opened. -/
def isNew? (engine : Engine) : Option Content → Option Bool
  | none => some true
  | some (.database _) => some false
  | some (.text s) => if engine.fillsEmpty && s.isEmpty then some true else none

/-- The process once the file of the database is open. -/
def opened (p : Process) (place : List String) (isNew : Bool) : Process :=
  { p with
    disk := if isNew then p.disk.store place (.database .empty) else p.disk
    connection := some (place, ⟨isNew, 0, none⟩) }

/-- Opens the file of the database, whose directory is made first. -/
def connect (engine : Engine) (path : String) : ExceptT Failure (StateM Process) Unit := do
  let (d, error) := (← get).disk.makeParent path
  modify fun p ↦ { p with disk := d }
  if let some e := error then throw (.store (.file e))
  let place ← ofExcept ((d.target path).mapError fun e ↦ .database ⟨e.message⟩)
  let some isNew := isNew? engine (d.files.get? place)
    | throw (.database (.notDatabase path))
  if let some e := engine.refusal? ⟨isNew, 0, none⟩ .connect then throw (.database e)
  modify fun p ↦ p.opened place isNew

/-- The process after a statement that is not refused. -/
def advance (p : Process) (place : List String) (c : Connection) (s : Statement) : Process :=
  let stored := p.disk.rowsAt place
  { p with
    disk := match c.storedAfter stored s with
      | some rows => p.disk.store place (.database rows)
      | none => p.disk
    connection := some (place, c.after stored s) }

/-- Sends a statement to the database. -/
def send (engine : Engine) (s : Statement) :
    ExceptT DatabaseError (StateM Process) (List VenueRow) := do
  let p ← get
  let some (place, c) := p.connection | throw ⟨"there is no connection"⟩
  match engine.refusal? c s with
  | some e =>
    set { p with connection := some (place, { c with sent := c.sent + 1 }) }
    throw e
  | none =>
    set (p.advance place c s)
    return c.answer (p.disk.rowsAt place) s

def print (text : String) : StateM Process Unit :=
  modify fun p ↦ { p with stdout := p.stdout ++ text }

def host (engine : Engine) (path : String) (stamp : Stamp) : Host (StateM Process) where
  databasePath := path
  readFile := readFile
  writeFile := writeFile
  connect := connect engine path
  send := send engine
  print := print
  stamp := return stamp

end Process

/-! ## Sessions -/

/-- What a run leaves to whoever called it. -/
structure Outcome where
  stdout : String
  failure : Option Failure

def Outcome.ofResult (stdout : String) : Except Failure Unit → Outcome
  | .ok () => ⟨stdout, none⟩
  | .error e => ⟨stdout, some e⟩

def Outcome.exitCode (o : Outcome) : Nat := (o.failure.map Failure.exitCode).getD 0

/-- All that the runs of a session have printed. -/
structure Transcript where
  text : String

def Transcript.empty : Transcript := ⟨""⟩

/-- What the runs of the program share. -/
structure Session where
  disk : Disk
  databasePath : String
  transcript : Transcript

/-- Runs the program once. -/
def Session.run (s : Session) (stamp : Stamp) (args : List String)
    (engine : Engine := .reliable) : Outcome × Session :=
  let (result, p) := Process.exec (CommandLine.run (Process.host engine s.databasePath stamp) args)
    (.start s.disk)
  (.ofResult p.stdout result,
    { s with disk := p.disk, transcript := ⟨s.transcript.text ++ p.stdout⟩ })

end OracleMarkets.CommandLine
