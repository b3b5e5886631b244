import OracleMarkets.Decimal.Read
import OracleMarkets.Document.Value

/-!
# Reading JSON

The reader takes the texts of the JSON grammar and no others: there are no comments, no trailing
commas and no byte order mark, a number has no leading zeros, and a text has no bare control
character.  A part that fits the grammar but is no value is `Value.unreadable`: a text in which a
surrogate stands alone, a number beyond the doubles, a list or a record that lies too deep.
-/

namespace OracleMarkets.Json

def isSpace (c : Char) : Bool := c == ' ' || c == '\n' || c == '\t' || c == '\r'

def skipSpace (s : List Char) : List Char := s.dropWhile isSpace

/-! ## Numbers -/

/-- Reads digits on top of the significand `m` as long as it fits into 64 bits: the significand, and
how many digits are left over. -/
def readSignificand (m : Nat) : List Char → Nat × Nat
  | [] => (m, 0)
  | c :: ds =>
    let n := 10 * m + Decimal.digitValue c
    if n < 0x10000000000000000 then readSignificand n ds else (m, ds.length + 1)

/-- The double `x` over the power `10 ^ n`, by powers that are doubles themselves. -/
def divideByTen (x : Float) (n : Nat) : Float :=
  if n ≤ 308 then x / Decimal.nearest 1 n
  else if x == 0.0 then x
  else divideByTen (x / Decimal.nearest 1 308) (n - 308)
termination_by n

/-- The double that stands for `m * 10 ^ e`: that of the significand, times or over a power of ten.
Each step rounds, so that this need not be the nearest double.  There is none beyond the doubles. -/
def scale? (m : Nat) (e : Int) : Option Float :=
  let x := m.toUInt64.toFloat
  if e < 0 then some (divideByTen x e.natAbs)
  else if e ≤ 308 then some (x * Decimal.nearest 1 e.natAbs) |>.filter fun y ↦ !y.isInf
  else some x |>.filter (· == 0.0)

/-- The number with the given sign, digits before and after the point, and exponent.  Without a
point and an exponent it is an integer if it fits into 64 bits; a negative zero is a double.  Digits
that the significand has no room for count before the point only, by their place. -/
def makeNumber (negative : Bool) (whole fraction : List Char) (exponent : Int)
    (isInteger : Bool) : Value :=
  let (m, skipped) := readSignificand 0 whole
  if isInteger && skipped == 0 && !negative then .int m
  else if isInteger && skipped == 0 && 0 < m && m ≤ 0x8000000000000000 then .int (-m)
  else
    let (m, ignored) := readSignificand m fraction
    match scale? m (exponent + skipped - (fraction.length - ignored : Nat)) with
    | some x => .number (.float (if negative then -x else x))
    | none => .unreadable

/-- The digits before the point: `0`, or digits that do not begin with `0`. -/
def readWhole (s : List Char) : Option (List Char × List Char) :=
  match Decimal.spanDigits s with
  | ([], _) => none
  | ('0' :: _ :: _, _) => none
  | (ds, rest) => some (ds, rest)

def readFraction : List Char → Option (List Char × List Char)
  | '.' :: s =>
    match Decimal.spanDigits s with
    | ([], _) => none
    | (ds, rest) => some (ds, rest)
  | s => some ([], s)

def readNumber (s : List Char) : Option (Value × List Char) := do
  let (negative, s) := match s with
    | '-' :: s => (true, s)
    | s => (false, s)
  let (whole, afterWhole) ← readWhole s
  let (fraction, afterFraction) ← readFraction afterWhole
  let (exponent, rest) ← Decimal.readExponent afterFraction
  let isInteger := fraction.isEmpty && !afterFraction.head?.any fun c ↦ c == 'e' || c == 'E'
  return (makeNumber negative whole fraction exponent isInteger, rest)

/-! ## Texts -/

def hexValue? (c : Char) : Option Nat :=
  if c.isDigit then some (c.toNat - 48)
  else if 'a' ≤ c ∧ c ≤ 'f' then some (c.toNat - 87)
  else if 'A' ≤ c ∧ c ≤ 'F' then some (c.toNat - 55)
  else none

def readUnit : List Char → Option (Nat × List Char)
  | a :: b :: c :: d :: rest => do
    let a ← hexValue? a
    let b ← hexValue? b
    let c ← hexValue? c
    let d ← hexValue? d
    return (((a * 16 + b) * 16 + c) * 16 + d, rest)
  | _ => none

/-- The character of an escape, after `\u`: one unit, or a pair of surrogates.  A surrogate that
stands alone is no character. -/
def readUnicode (s : List Char) : Option (Option Char × List Char) := do
  let (high, rest) ← readUnit s
  if 0xDC00 ≤ high ∧ high < 0xE000 then return (none, rest)
  else if 0xD800 ≤ high ∧ high < 0xDC00 then
    match lowSurrogate? rest with
    | some (low, rest) =>
      return (some (Char.ofNat (0x10000 + (high - 0xD800) * 0x400 + (low - 0xDC00))), rest)
    | none => return (none, rest)
  else return (some (Char.ofNat high), rest)
where
  /-- The second unit of a pair of surrogates. -/
  lowSurrogate? : List Char → Option (Nat × List Char)
    | '\\' :: 'u' :: s =>
      (readUnit s).filter fun r ↦ decide (0xDC00 ≤ r.1) && decide (r.1 < 0xE000)
    | _ => none

/-- The character that stands for itself after a backslash, or for a control character. -/
def unescape? : Char → Option Char
  | '"' => some '"'
  | '\\' => some '\\'
  | '/' => some '/'
  | 'b' => some '\x08'
  | 'f' => some '\x0c'
  | 'n' => some '\n'
  | 'r' => some '\r'
  | 't' => some '\t'
  | _ => none

/-- A text as it stands between quotes. -/
structure Quoted where
  /-- The characters, unless one of them is a surrogate that stands alone. -/
  chars : Option (List Char)
  isEscaped : Bool

def Quoted.cons (c : Option Char) (isEscape : Bool) (q : Quoted) : Quoted where
  chars := do
    let c ← c
    let cs ← q.chars
    return c :: cs
  isEscaped := isEscape || q.isEscaped

/-- The characters up to the closing quote.  Each step takes at least one character, so fuel above
the length of the text is enough. -/
def readChars : Nat → List Char → Option (Quoted × List Char)
  | 0, _ => none
  | _ + 1, [] => none
  | _ + 1, '"' :: rest => some (⟨some [], false⟩, rest)
  | fuel + 1, '\\' :: 'u' :: s => do
    let (c, s) ← readUnicode s
    let (q, rest) ← readChars fuel s
    return (q.cons c true, rest)
  | fuel + 1, '\\' :: l :: s => do
    let c ← unescape? l
    let (q, rest) ← readChars fuel s
    return (q.cons (some c) true, rest)
  | fuel + 1, c :: s =>
    if c = '\\' ∨ c.toNat < 0x20 then none
    else do
      let (q, rest) ← readChars fuel s
      return (q.cons (some c) false, rest)

def Quoted.value (q : Quoted) : Value :=
  match q.chars with
  | some cs => .text (String.ofList cs)
  | none => .unreadable

def Quoted.key? (q : Quoted) : Option Key :=
  q.chars.map fun cs ↦
    if q.isEscaped then .escaped (String.ofList cs) else .plain (String.ofList cs)

/-! ## Values -/

def dropWord? : List Char → List Char → Option (List Char)
  | [], s => some s
  | _ :: _, [] => none
  | c :: word, d :: s => if c = d then dropWord? word s else none

/-- The record of some fields, which cannot be read if a name is no text. -/
def makeRecord (fields : List (Option Key × Value)) : Value :=
  match fields.mapM fun f ↦ f.1.map (·, f.2) with
  | some fields => .record fields
  | none => .unreadable

/-- A list or a record that stands `depth` levels above the greatest depth, below which none can be
read. -/
def atDepth (depth : Nat) (v : Value) : Value := if depth = 0 then .unreadable else v

mutual

/-- A value at the front of a text, in which `depth` more lists and records may stand in one
another.  Each second step takes at least one character, so fuel above twice the length of the text
is enough. -/
def readValue : Nat → Nat → List Char → Option (Value × List Char)
  | 0, _, _ => none
  | fuel + 1, depth, s =>
    match skipSpace s with
    | 'n' :: s => (dropWord? "ull".toList s).map (.null, ·)
    | 't' :: s => (dropWord? "rue".toList s).map (.bool true, ·)
    | 'f' :: s => (dropWord? "alse".toList s).map (.bool false, ·)
    | '"' :: s => (readChars fuel s).map fun r ↦ (r.1.value, r.2)
    | '[' :: s =>
      match skipSpace s with
      | ']' :: rest => some (atDepth depth (.list []), rest)
      | s => do
        let (items, rest) ← readItems fuel (depth - 1) s
        return (atDepth depth (.list items), rest)
    | '\x7b' :: s =>
      match skipSpace s with
      | '\x7d' :: rest => some (atDepth depth (.record []), rest)
      | s => do
        let (fields, rest) ← readFields fuel (depth - 1) s
        return (atDepth depth (makeRecord fields), rest)
    | s => readNumber s

def readItems : Nat → Nat → List Char → Option (List Value × List Char)
  | 0, _, _ => none
  | fuel + 1, depth, s => do
    let (v, s) ← readValue fuel depth s
    match skipSpace s with
    | ',' :: s =>
      let (items, rest) ← readItems fuel depth s
      return (v :: items, rest)
    | ']' :: rest => return ([v], rest)
    | _ => none

def readFields : Nat → Nat → List Char → Option (List (Option Key × Value) × List Char)
  | 0, _, _ => none
  | fuel + 1, depth, s => do
    let '"' :: s := skipSpace s | none
    let (name, s) ← readChars fuel s
    let ':' :: s := skipSpace s | none
    let (v, s) ← readValue fuel depth s
    match skipSpace s with
    | ',' :: s =>
      let (fields, rest) ← readFields fuel depth s
      return ((name.key?, v) :: fields, rest)
    | '\x7d' :: rest => return ([(name.key?, v)], rest)
    | _ => none

end

def maxDepth : Nat := 127

def read? (s : String) : Option Value := do
  let cs := s.toList
  let (v, rest) ← readValue (2 * cs.length + 2) maxDepth cs
  if skipSpace rest = [] then some v else none

end OracleMarkets.Json
