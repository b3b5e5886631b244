import OracleMarkets.FileError
import OracleMarkets.Json.Reader
import OracleMarkets.SortedMap.Lemmas
import OracleMarkets.VenueRow

/-!
# Stores of venue rows

A store answers which rows some venues reported, in the order of their keys.  A `Snapshot` is a list
of rows as they came; a `Warehouse` keeps one row for each key, the last that was taken in, and
takes in either all rows of a batch or none.
-/

namespace OracleMarkets

/-- The answer of a store: the rows of any of the given venues in the order of their keys. -/
abbrev RowSource := List String → List VenueRow

/-- Why a store has no answer.  What a database refuses in its own words is a `DatabaseError`. -/
inductive StoreError where
  | file (cause : FileError)
  | notRows
  | rejected (cause : RowError)
deriving DecidableEq, Repr

def StoreError.message : StoreError → String
  | .file cause => cause.message
  | .notRows => "row rejected: the text is no list of rows"
  | .rejected cause => cause.message

def VenueRow.keyLe (r s : VenueRow) : Bool := (compare r.key s.key).isLE

/-- Rows as they came. -/
structure Snapshot where
  rows : List VenueRow

namespace Snapshot

def push (s : Snapshot) (r : VenueRow) : Snapshot := ⟨s.rows ++ [r]⟩

/-- The rows of any of the given venues; rows of one key keep their order. -/
def venueRows (s : Snapshot) : RowSource := fun venues ↦
  (s.rows.filter fun r ↦ venues.contains r.venue).mergeSort VenueRow.keyLe

def decode? (v : Value) : Option Snapshot := (v.list? VenueRow.decode?).map Snapshot.mk

def ofFile (content : Except FileError String) : Except StoreError Snapshot := do
  let text ← content.mapError .file
  match (Json.read? text).bind decode? with
  | some s => return s
  | none => throw .notRows

end Snapshot

/-- The rows under their keys. -/
structure Warehouse where
  table : SortedMap RowKey VenueRow

namespace Warehouse

def empty : Warehouse := ⟨∅⟩

def maxId : UInt64 := 0x7FFFFFFFFFFFFFFF

/-- The row as a warehouse keeps it: its symbols in upper case, and greater ids and ranks replaced
by the greatest that can be kept. -/
def stored (r : VenueRow) : VenueRow :=
  { r with
    key := { r.key with base := Text.upper r.key.base, quote := Text.upper r.key.quote }
    baseId := min r.baseId maxId
    quoteId := min r.quoteId maxId
    baseRank := min r.baseRank maxId
    quoteRank := min r.quoteRank maxId }

/-- Writes a row over any row of its key. -/
def write (w : Warehouse) (r : VenueRow) : Warehouse :=
  ⟨w.table.insert (stored r).key (stored r)⟩

/-- Takes in all rows of a batch, or refuses the batch for its first row that is not valid. -/
def ingest (w : Warehouse) (batch : List VenueRow) : Except RowError Warehouse := do
  batch.forM VenueRow.validate
  return batch.foldl write w

/-- The rows of any of the given venues. -/
def venueRows (w : Warehouse) : RowSource := fun venues ↦
  w.table.values.filter fun r ↦ venues.contains r.venue

def venueNames (w : Warehouse) : List String :=
  (SortedSet.ofList (w.table.values.map (·.venue))).keys

def encode (w : Warehouse) : Value := .list (w.table.values.map VenueRow.encode)

def decode? (v : Value) : Option Warehouse := do
  let rows ← v.list? VenueRow.decode?
  return rows.foldl write empty

end Warehouse

end OracleMarkets
