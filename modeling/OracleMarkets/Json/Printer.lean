import OracleMarkets.Decimal.Layout
import OracleMarkets.Document.Value

/-!
# JSON texts

The compact text of a value has no blanks; the indented text puts every item on a line of its own,
two spaces deeper than its list or record.  Only quotes, backslashes and control characters are
escaped.
-/

namespace OracleMarkets.Json

def hexDigit (n : Nat) : Char := if n < 10 then Char.ofNat (48 + n) else Char.ofNat (87 + n)

def escape (c : Char) : List Char :=
  if c = '"' then ['\\', '"']
  else if c = '\\' then ['\\', '\\']
  else if c = '\n' then ['\\', 'n']
  else if c = '\r' then ['\\', 'r']
  else if c = '\t' then ['\\', 't']
  else if c = '\x08' then ['\\', 'b']
  else if c = '\x0c' then ['\\', 'f']
  else if c.toNat < 0x20 then
    ['\\', 'u', '0', '0', hexDigit (c.toNat / 16), hexDigit (c.toNat % 16)]
  else [c]

def quote (s : String) : List Char := '"' :: s.toList.flatMap escape ++ ['"']

def integer (n : Int) : List Char :=
  if n < 0 then '-' :: Decimal.digits n.natAbs else Decimal.digits n.natAbs

def number : Number → List Char
  | .int n => integer n
  | .float x => (Decimal.Layout.inJson.render x).toList

mutual

def chars : Value → List Char
  | .null | .unreadable => "null".toList
  | .bool b => (if b then "true" else "false").toList
  | .number n => number n
  | .text s => quote s
  | .list [] => ['[', ']']
  | .list (v :: rest) => '[' :: chars v ++ charsRest rest ++ [']']
  | .record [] => ['\x7b', '\x7d']
  | .record ((k, v) :: rest) =>
    '\x7b' :: quote k.text ++ ':' :: chars v ++ fieldsRest rest ++ ['\x7d']

def charsRest : List Value → List Char
  | [] => []
  | v :: rest => ',' :: chars v ++ charsRest rest

def fieldsRest : List (Key × Value) → List Char
  | [] => []
  | (k, v) :: rest => ',' :: quote k.text ++ ':' :: chars v ++ fieldsRest rest

end

def newline (n : Nat) : List Char := '\n' :: List.replicate n ' '

mutual

def indented (n : Nat) : Value → List Char
  | .list (v :: rest) =>
    '[' :: newline (n + 2) ++ indented (n + 2) v ++ indentedRest n rest ++ newline n ++ [']']
  | .record ((k, v) :: rest) =>
    '\x7b' :: newline (n + 2) ++ quote k.text ++ ':' :: ' ' :: indented (n + 2) v ++
      indentedFields n rest ++ newline n ++ ['\x7d']
  | .null | .unreadable => "null".toList
  | .bool b => (if b then "true" else "false").toList
  | .number x => number x
  | .text s => quote s
  | .list [] => ['[', ']']
  | .record [] => ['\x7b', '\x7d']

def indentedRest (n : Nat) : List Value → List Char
  | [] => []
  | v :: rest => ',' :: newline (n + 2) ++ indented (n + 2) v ++ indentedRest n rest

def indentedFields (n : Nat) : List (Key × Value) → List Char
  | [] => []
  | (k, v) :: rest =>
    ',' :: newline (n + 2) ++ quote k.text ++ ':' :: ' ' :: indented (n + 2) v ++
      indentedFields n rest

end

def compact (v : Value) : String := String.ofList (chars v)

def pretty (v : Value) : String := String.ofList (indented 0 v)

end OracleMarkets.Json
