import OracleMarkets.CommandLine.Session
import Std.Time.DateTime.Timestamp

/-!
# The program

The host of the program is the operating system.  The file of its database holds the rows of the
warehouse as JSON text.
-/

namespace OracleMarkets.Program

open CommandLine

/-- The cause of a failed operation on a file.  The number of the cause may come negated. -/
def fileError : IO.Error → FileError
  | .noFileOrDirectory .. => .notFound
  | .alreadyExists .. => .alreadyExists
  | .invalidArgument _ code message =>
    if code = 36 ∨ code + 36 = 0 then .nameTooLong else .other message
  | .inappropriateType _ code _ => if code = 20 ∨ code + 20 = 0 then .notDirectory else .isDirectory
  | e => .other (toString e)

def attempt {α : Type} (act : IO α) : IO (Except FileError α) := do
  match ← act.toBaseIO with
  | .ok a => return .ok a
  | .error e => return .error (fileError e)

def readText (path : String) : IO (Except FileError String) := do
  match ← attempt (IO.FS.readBinFile path) with
  | .error e => return .error e
  | .ok bytes =>
    match String.fromUTF8? bytes with
    | some text => return .ok text
    | none => return .error .notText

def ensureDirectory (path : String) : IO (Except FileError Unit) := do
  match ← attempt (IO.FS.createDir path) with
  | .ok () => return .ok ()
  | .error .notFound => return .error .notFound
  | .error e =>
    match ← attempt (IO.FS.createDirAll path) with
    | .ok () => return .ok ()
    | .error _ => return .error e

/-- Makes the directory of some names, which are given in reverse, and those on the way to it. -/
def makeDirectories (isAbsolute : Bool) : List String → IO (Except FileError Unit)
  | [] => return .ok ()
  | name :: before => do
    let path := Path.ofSteps isAbsolute (name :: before).reverse
    match ← ensureDirectory path with
    | .error .notFound =>
      match ← makeDirectories isAbsolute before with
      | .ok () => ensureDirectory path
      | .error e => return .error e
    | result => return result

def createParent (path : String) : IO (Except FileError Unit) :=
  makeDirectories (Path.isAbsolute path) (Path.parent path).reverse

def writeText (path text : String) : IO (Except FileError Unit) := do
  match ← createParent path with
  | .ok () => attempt (IO.FS.writeFile path text)
  | .error e => return .error e

/-- The open database: the connection, and the rows that are stored. -/
abbrev Database := IO.Ref (Option (Connection × Warehouse))

def storeRows (path : String) (rows : Warehouse) : ExceptT DatabaseError IO Unit :=
  (ExceptT.mk (attempt (IO.FS.writeFile path (Json.compact rows.encode)))).adapt fun e ↦ ⟨e.message⟩

/-- Opens the database of a path, which is made if there is no file yet or an empty one. -/
def connect (path : String) (database : Database) : ExceptT Failure IO Unit := do
  (ExceptT.mk (createParent path)).adapt fun e ↦ .store (.file e)
  let content ← ExceptT.lift (readText path)
  let (isNew, rows) ← match content with
    | .error .notFound | .ok "" => pure (true, .empty)
    | .error e => throw (.database ⟨e.message⟩)
    | .ok text =>
      match (Json.read? text).bind Warehouse.decode? with
      | some rows => pure (false, rows)
      | none => throw (.database (.notDatabase path))
  if isNew then (storeRows path rows).adapt .database
  database.set (some (⟨isNew, 0, none⟩, rows))

/-- Sends a statement to the database. -/
def send (path : String) (database : Database) (s : Statement) :
    ExceptT DatabaseError IO (List VenueRow) := do
  let some (c, stored) ← database.get | throw ⟨"there is no connection"⟩
  let rows := c.storedAfter stored s
  rows.forM (storeRows path)
  database.set (some (c.after stored s, rows.getD stored))
  return c.answer stored s

def idText (bytes : List UInt8) : String :=
  let digits := bytes.flatMap fun b ↦ [Json.hexDigit (b.toNat / 16), Json.hexDigit (b.toNat % 16)]
  let variant := Json.hexDigit (8 + ((bytes.getD 8 0).toNat / 16) % 4)
  let digits := (digits.set 12 '4').set 16 variant
  let part (start length : Nat) : String := String.ofList ((digits.drop start).take length)
  "-".intercalate [part 0 8, part 8 4, part 12 4, part 16 4, part 20 12]

def makeId : IO { id : String // EnvelopeHeader.isRequestId id = true } := do
  let id := idText (← IO.getRandomBytes 16).toList
  if h : EnvelopeHeader.isRequestId id = true then return ⟨id, h⟩
  else throw (IO.userError "there are not enough random bytes")

def makeStamp (id : { id : String // EnvelopeHeader.isRequestId id = true }) (started : Nat) :
    IO Stamp := do
  let now := (← Std.Time.Timestamp.now).toNanosecondsSinceUnixEpoch.val.toNat
  let some generatedAt := Timestamp.ofEpoch? (now / 1000000000) (now % 1000000000)
    | throw (IO.userError "the clock is out of range")
  let latency := (← IO.monoMsNow) - started
  return ⟨id.1, generatedAt, UInt64.ofNat latency, id.2⟩

def host (path : String) (database : Database)
    (id : { id : String // EnvelopeHeader.isRequestId id = true }) (started : Nat) : Host IO where
  databasePath := path
  readFile := readText
  writeFile path text := ExceptT.mk (writeText path text)
  connect := connect path database
  send := send path database
  print text := IO.print text
  stamp := makeStamp id started

end OracleMarkets.Program

open OracleMarkets OracleMarkets.Program in
def main (args : List String) : IO UInt32 := do
  let started ← IO.monoMsNow
  let path := CommandLine.databasePath (← IO.getEnv "MARKETMAP_HOME") (← IO.getEnv "HOME")
  let database ← IO.mkRef none
  match ← (CommandLine.run (host path database (← makeId) started) args).run with
  | .ok () => return 0
  | .error f =>
    IO.eprintln s!"error: {f.message}"
    return UInt32.ofNat f.exitCode
