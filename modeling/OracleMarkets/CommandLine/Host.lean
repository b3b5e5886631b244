import OracleMarkets.CommandLine.Failure
import OracleMarkets.Envelope

/-!
# Hosts

A command acts on the world through its host, one step after another: it reads and writes files,
sends statements to the database and prints.  What it has done before a step fails stays done.
-/

namespace OracleMarkets.CommandLine

/-- By what an answer is told apart from others. -/
structure Stamp where
  requestId : String
  generatedAt : Timestamp
  /-- How long the answer took, in milliseconds. -/
  latencyMs : UInt64
  requestId_valid : EnvelopeHeader.isRequestId requestId = true

/-- What a command can do. -/
structure Host (m : Type → Type) where
  databasePath : String
  readFile (path : String) : m (Except FileError String)
  writeFile (path text : String) : ExceptT FileError m Unit
  /-- Opens the file of the database, which is made if there is none. -/
  connect : ExceptT Failure m Unit
  send (s : Statement) : ExceptT DatabaseError m (List VenueRow)
  print (text : String) : m Unit
  stamp : m Stamp

namespace Host

variable {m : Type → Type} [Monad m] (h : Host m)

/-- What reading a file gives, which fails only when it is looked at. -/
def content (path : String) : ExceptT Failure m (Except FileError String) :=
  ExceptT.lift (h.readFile path)

def write (path text : String) : ExceptT Failure m Unit := (h.writeFile path text).adapt .unwritable

/-- Writes files in order, up to the first that cannot be written. -/
def writeAll (files : List (String × String)) : ExceptT Failure m Unit :=
  files.forM fun file ↦ h.write file.1 file.2

/-- The rows that a statement asks for. -/
def ask (s : Statement) : ExceptT Failure m (List VenueRow) := (h.send s).adapt .database

def tell (s : Statement) : ExceptT Failure m Unit := do let _ ← h.ask s

def openWarehouse : ExceptT Failure m Unit := do
  h.connect
  h.tell .configure
  h.tell .migrate

/-- The rows of venues.  No statement is sent if there are no venues. -/
def venueRows (venues : List String) : ExceptT Failure m (List VenueRow) := do
  if venues.isEmpty then return []
  h.tell .configure
  h.ask (.select venues)

def insertRows (batch : List VenueRow) : ExceptT Failure m Unit := do
  h.tell .prepare
  batch.forM fun r ↦ h.tell (.insert r)

/-- Rolls the transaction back and fails.  Why it cannot be rolled back is of no interest then. -/
def abort (e : Failure) : ExceptT Failure m Unit := do
  try h.tell .rollback catch _ => pure ()
  throw e

/-- Does something within a transaction, which is rolled back if it fails. -/
def transact (act : ExceptT Failure m Unit) : ExceptT Failure m Unit := do
  h.tell .begin
  try act catch e => h.abort e
  h.tell .commit

/-- Takes in all rows of a batch, or refuses the batch for its first row that is not valid. -/
def ingest (batch : List VenueRow) : ExceptT Failure m Unit := do
  if batch.isEmpty then return
  ofExcept ((batch.forM VenueRow.validate).mapError fun e ↦ .store (.rejected e))
  h.transact (h.insertRows batch)

end Host

end OracleMarkets.CommandLine
