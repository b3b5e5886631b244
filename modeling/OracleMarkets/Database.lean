import OracleMarkets.RowStore

/-!
# Databases

The rows of a warehouse are kept by a database engine, which is no part of the program.  The program
sends it statements one after another.  What is written in a transaction is seen by this transaction
only, until it is committed; without a transaction it is stored at once.  The engine may refuse any
statement, for reasons of its own, and a statement that is refused changes nothing.
-/

namespace OracleMarkets

/-- Why an engine refuses a statement, in its own words. -/
structure DatabaseError where
  message : String
deriving DecidableEq, Repr

/-- The file at a path cannot be opened, as it holds something else. -/
def DatabaseError.notDatabase (path : String) : DatabaseError :=
  ⟨s!"IO Error: The file \"{path}\" exists, but it is not a valid DuckDB database file!"⟩

/-- What a database is asked for: to open a connection and set it up, to bring the tables into their
present form, to give the rows of venues, and to write rows in a transaction. -/
inductive Statement where
  | connect
  | configure
  | migrate
  | select (venues : List String)
  | begin
  | prepare
  | insert (row : VenueRow)
  | commit
  | rollback

def Statement.isReading : Statement → Bool
  | .connect | .configure | .migrate | .select _ => true
  | .begin | .prepare | .insert _ | .commit | .rollback => false

/-- A connection to a database, as the statements before have left it. -/
structure Connection where
  /-- Whether the database was made for this connection. -/
  isNew : Bool
  sent : Nat
  /-- The rows as the open transaction has them. -/
  transaction : Option Warehouse

namespace Connection

/-- The rows that are asked for, where the database has the rows `stored`. -/
def answer (c : Connection) (stored : Warehouse) : Statement → List VenueRow
  | .select venues => (c.transaction.getD stored).venueRows venues
  | _ => []

def transactionAfter (c : Connection) (stored : Warehouse) : Statement → Option Warehouse
  | .begin => some (c.transaction.getD stored)
  | .insert r => c.transaction.map (·.write r)
  | .commit | .rollback => none
  | _ => c.transaction

def after (c : Connection) (stored : Warehouse) (s : Statement) : Connection :=
  ⟨c.isNew, c.sent + 1, c.transactionAfter stored s⟩

/-- The rows that the database has after a statement, if they change. -/
def storedAfter (c : Connection) (stored : Warehouse) : Statement → Option Warehouse
  | .insert r => if c.transaction.isSome then none else some (stored.write r)
  | .commit => c.transaction
  | _ => none

end Connection

/-- What can be known of an engine beforehand. -/
structure Engine where
  /-- Whether an empty file becomes a database when it is opened. -/
  fillsEmpty : Bool
  /-- Why a statement is refused, if it is. -/
  refusal? : Connection → Statement → Option DatabaseError

namespace Engine

/-- An engine that refuses nothing. -/
def reliable : Engine := ⟨true, fun _ _ ↦ none⟩

end Engine

end OracleMarkets
