/-!
# Values of documents

A `Value` is what a JSON or a YAML document says before it is read as a domain type.  Fields keep
their order and may repeat: what a repeated name means is decided by what is read from the record.
-/

namespace OracleMarkets

/-- A number of a document. -/
inductive Number where
  /-- An integer from `-2 ^ 63` to `2 ^ 64 - 1`. -/
  | int (n : Int)
  | float (x : Float)

/-- The name of a field, and how it is written. -/
inductive Key where
  | plain (s : String)
  /-- A name of which a character is written by an escape.  Such a name is never a number. -/
  | escaped (s : String)
deriving DecidableEq, Repr

def Key.text : Key → String
  | .plain s | .escaped s => s

/-- A value of a document. -/
inductive Value where
  | null
  | bool (b : Bool)
  | number (n : Number)
  | text (s : String)
  | list (items : List Value)
  | record (fields : List (Key × Value))
  /-- A part that has the form of a value but is none, as it is too large, too deep or no text.  It
  may stand where nothing is read. -/
  | unreadable

instance : Inhabited Value := ⟨.null⟩

namespace Value

def int (n : Int) : Value := .number (.int n)

/-- A 64-bit natural number as a value. -/
def count (n : UInt64) : Value := .int n.toNat

def size (n : Nat) : Value := .int n

/-- A double as a value, which is absent if the double is not finite. -/
def amount (x : Float) : Value := if x.isFinite then .number (.float x) else .null

def object (fields : List (String × Value)) : Value :=
  .record (fields.map fun f ↦ (.plain f.1, f.2))

def field? (name : String) : Value → Option Value
  | .record fields => (fields.reverse.find? fun f ↦ f.1.text == name).map (·.2)
  | _ => none

mutual

def isReadable : Value → Bool
  | .list items => areReadable items
  | .record fields => areFieldsReadable fields
  | .unreadable => false
  | .null | .bool _ | .number _ | .text _ => true

def areReadable : List Value → Bool
  | [] => true
  | v :: rest => isReadable v && areReadable rest

def areFieldsReadable : List (Key × Value) → Bool
  | [] => true
  | (_, v) :: rest => isReadable v && areFieldsReadable rest

end

/-- Puts a field into fields sorted by name, in the place of a field of its name. -/
def insertField (k : Key) (v : Value) : List (Key × Value) → List (Key × Value)
  | [] => [(k, v)]
  | (j, w) :: rest =>
    match compare k.text j.text with
    | .lt => (k, v) :: (j, w) :: rest
    | .eq => (k, v) :: rest
    | .gt => (j, w) :: insertField k v rest

mutual

/-- The value with the fields of all its records in the order of their names, the last of several
fields of one name. -/
def sortKeys : Value → Value
  | .list items => .list (sortKeysList items)
  | .record fields => .record (sortKeysFields fields [])
  | v => v

def sortKeysList : List Value → List Value
  | [] => []
  | v :: rest => sortKeys v :: sortKeysList rest

def sortKeysFields : List (Key × Value) → List (Key × Value) → List (Key × Value)
  | [], acc => acc
  | (k, v) :: rest, acc => sortKeysFields rest (insertField k (sortKeys v) acc)

end

end Value

end OracleMarkets
