import OracleMarkets.Decimal.Read
import OracleMarkets.Document.Value
import OracleMarkets.SortedMap.Basic

/-!
# Reading values as domain types

A reader of type `Value → Option α` refuses a value that does not have the form of an `α`; it does
not say why.  This file has the readers of numbers, texts, lists and maps, and `Value.fields?`, by
which structures are read.

A structure is read from a record, in which a known name stands at most once and unknown names are
passed over, or from a list of its fields in order, which may end early.
-/

namespace OracleMarkets

namespace Value

def bool? : Value → Option Bool
  | .bool b => some b
  | _ => none

def countOfInt? (n : Int) : Option UInt64 :=
  if 0 ≤ n ∧ n < 0x10000000000000000 then some (UInt64.ofNat n.toNat) else none

/-- A natural number of 64 bits; a number with a point or an exponent is none. -/
def count? : Value → Option UInt64
  | .number (.int n) => countOfInt? n
  | _ => none

/-- The natural number of 64 bits that a name stands for: the name is its decimal text. -/
def countKey? : Key → Option UInt64
  | .plain s => (Decimal.canonical? s.toList).bind fun n ↦ countOfInt? n
  | .escaped _ => none

def amount? : Value → Option Float
  | .number (.int n) => some (Float.ofInt n)
  | .number (.float x) => some x
  | _ => none

def text? : Value → Option String
  | .text s => some s
  | _ => none

/-- Whether the value stands for nothing. -/
def isAbsent : Value → Bool
  | .null => true
  | _ => false

def option? {α : Type} (read : Value → Option α) (v : Value) : Option (Option α) :=
  if v.isAbsent then some none else (read v).map some

def items? : Value → Option (List Value)
  | .list items => some items
  | _ => none

def entries? : Value → Option (List (Key × Value))
  | .record fields => some fields
  | _ => none

def list? {α : Type} (read : Value → Option α) (v : Value) : Option (List α) :=
  v.items?.bind (·.mapM read)

/-- A map from names to values that `read` takes.  The last of several fields of one name wins. -/
def map? {α : Type} (read : Value → Option α) (v : Value) : Option (SortedMap String α) := do
  let entries ← v.entries?
  let entries ← entries.mapM fun e ↦ (read e.2).map (e.1.text, ·)
  return .ofList entries

/-- A map from numbers to values that `read` takes.  The last of several fields of one number
wins. -/
def countMap? {α : Type} (read : Value → Option α) (v : Value) : Option (SortedMap UInt64 α) := do
  let entries ← v.entries?
  let entries ← entries.mapM fun e ↦ do
    let k ← countKey? e.1
    let a ← read e.2
    return (k, a)
  return .ofList entries

end Value

abbrev Fields := List (String × Value)

namespace Fields

def get? (fs : Fields) (name : String) : Option Value := (fs.find? fun f ↦ f.1 == name).map (·.2)

/-- A field that has to be there. -/
def required {α : Type} (fs : Fields) (name : String) (read : Value → Option α) : Option α :=
  (fs.get? name).bind read

/-- A field that is `d` if it is not there. -/
def withDefault {α : Type} (fs : Fields) (name : String) (d : α) (read : Value → Option α) :
    Option α :=
  match fs.get? name with
  | some v => read v
  | none => some d

/-- The fields with names from `names`, none of which stands twice. -/
def ofEntries? (names : List String) (entries : List (Key × Value)) : Option Fields :=
  let known := (entries.map fun e ↦ (e.1.text, e.2)).filter fun f ↦ names.contains f.1
  if (known.map (·.1)).Nodup then some known else none

end Fields

def Value.fields? (names : List String) (v : Value) : Option Fields :=
  match v with
  | .list items => if items.length ≤ names.length then some (names.zip items) else none
  | v => v.entries?.bind (Fields.ofEntries? names)

end OracleMarkets
