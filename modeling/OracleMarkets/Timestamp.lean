import OracleMarkets.Document.Decode
import OracleMarkets.ValidationError

/-!
# Timestamps

An instant in UTC, to the nanosecond, with a year of four digits.  It is read from and written as an
RFC 3339 text.  A text may have any single ASCII character between date and time, small
letters for `T` and `Z`, the offsets `+00:00` and `-00:00`, and more than nine digits after the
point, of which the further ones are dropped; the written text has a capital `Z` and no zeros at
the end of its fraction.  A leap second is the last nanosecond before it.
-/

namespace OracleMarkets

def isLeapYear (year : Nat) : Bool := year % 4 == 0 && (year % 100 != 0 || year % 400 == 0)

def daysInMonth (year month : Nat) : Nat :=
  if month = 2 then (if isLeapYear year then 29 else 28)
  else if month = 4 ∨ month = 6 ∨ month = 9 ∨ month = 11 then 30
  else 31

/-- An instant in UTC. -/
structure Timestamp where
  year : Nat
  month : Nat
  day : Nat
  hour : Nat
  minute : Nat
  /-- The second, which is never a leap second. -/
  second : Nat
  nanosecond : Nat
  date_valid : year ≤ 9999 ∧ 1 ≤ month ∧ month ≤ 12 ∧ 1 ≤ day ∧ day ≤ daysInMonth year month
  time_valid : hour < 24 ∧ minute < 60 ∧ second < 60 ∧ nanosecond < 1000000000
deriving DecidableEq, Repr

namespace Timestamp

def parts (t : Timestamp) : List Nat :=
  [t.year, t.month, t.day, t.hour, t.minute, t.second, t.nanosecond]

/-- Earlier instants are less. -/
instance : Ord Timestamp := ⟨compareOn parts⟩

instance : Std.TransOrd Timestamp := inferInstanceAs (Std.TransCmp (compareOn parts))

instance : Std.LawfulEqOrd Timestamp where
  compare_self {t} := (Std.ReflCmp.compare_self : compare t.parts t.parts = .eq)
  eq_of_compare {s t} h := by
    have h : compare s.parts t.parts = .eq := h
    have : s.parts = t.parts := Std.LawfulEqCmp.eq_of_compare h
    cases s
    cases t
    simp_all [parts]

/-! ## Writing -/

def padded : Nat → Nat → List Char
  | 0, _ => []
  | width + 1, n => padded width (n / 10) ++ [Char.ofNat (48 + n % 10)]

def dropZeros (ds : List Char) : List Char := (ds.reverse.dropWhile (· == '0')).reverse

/-- The fraction of a second, with a point before it unless it is zero. -/
def fractionText (nanosecond : Nat) : List Char :=
  match dropZeros (padded 9 nanosecond) with
  | [] => []
  | ds => '.' :: ds

def text (t : Timestamp) : String :=
  String.ofList (padded 4 t.year ++ '-' :: padded 2 t.month ++ '-' :: padded 2 t.day ++
    'T' :: padded 2 t.hour ++ ':' :: padded 2 t.minute ++ ':' :: padded 2 t.second ++
    fractionText t.nanosecond ++ ['Z'])

/-! ## Reading -/

def readDigits : Nat → Nat → List Char → Option (Nat × List Char)
  | 0, n, s => some (n, s)
  | width + 1, n, c :: s =>
    if c.isDigit then readDigits width (10 * n + Decimal.digitValue c) s else none
  | _ + 1, _, [] => none

def expect? (c : Char) : List Char → Option (List Char)
  | d :: s => if d = c then some s else none
  | [] => none

/-- The rest of a text after the character between date and time, which may be any one of a single
byte. -/
def dropSeparator? : List Char → Option (List Char)
  | c :: s => if c.toNat < 128 then some s else none
  | [] => none

def readFraction? : List Char → Option (Nat × List Char)
  | '.' :: s =>
    match Decimal.spanDigits s with
    | ([], _) => none
    | (ds, rest) => some (Decimal.ofDigits ((ds ++ List.replicate 9 '0').take 9), rest)
  | s => some (0, s)

def isUtc (s : List Char) : Bool :=
  s == ['Z'] || s == ['z'] || s == "+00:00".toList || s == "-00:00".toList

/-- The instant with the given parts.  The second 60 is the last nanosecond of the second 59, and
stands only at the end of a month. -/
def ofParts? (year month day hour minute second nanosecond : Nat) : Option Timestamp :=
  if second = 60 then
    if hour = 23 ∧ minute = 59 ∧ day = daysInMonth year month then
      build year month day hour minute 59 999999999
    else none
  else build year month day hour minute second nanosecond
where
  /-- The instant, if its date and its time are valid. -/
  build (year month day hour minute second nanosecond : Nat) : Option Timestamp :=
    if hd : year ≤ 9999 ∧ 1 ≤ month ∧ month ≤ 12 ∧ 1 ≤ day ∧ day ≤ daysInMonth year month then
      if ht : hour < 24 ∧ minute < 60 ∧ second < 60 ∧ nanosecond < 1000000000 then
        some ⟨year, month, day, hour, minute, second, nanosecond, hd, ht⟩
      else none
    else none

def ofText? (s : String) : Option Timestamp := do
  let (year, s) ← readDigits 4 0 s.toList
  let s ← expect? '-' s
  let (month, s) ← readDigits 2 0 s
  let s ← expect? '-' s
  let (day, s) ← readDigits 2 0 s
  let s ← dropSeparator? s
  let (hour, s) ← readDigits 2 0 s
  let s ← expect? ':' s
  let (minute, s) ← readDigits 2 0 s
  let s ← expect? ':' s
  let (second, s) ← readDigits 2 0 s
  let (nanosecond, s) ← readFraction? s
  if isUtc s then ofParts? year month day hour minute second nanosecond else none

def parse (s : String) : Except ValidationError Timestamp :=
  match ofText? s with
  | some t => .ok t
  | none => .error (.timestampNotUtc s)

/-- The instant that many seconds and nanoseconds after the beginning of 1970.  Days are counted
from the first of March of the year 0, so that a 29th of February is the last day of its year. -/
def ofEpoch? (seconds nanosecond : Nat) : Option Timestamp :=
  let day := seconds / 86400 + 719468
  let dayOfEra := day % 146097
  let yearOfEra := (dayOfEra - dayOfEra / 1460 + dayOfEra / 36524 - dayOfEra / 146096) / 365
  let dayOfYear := dayOfEra - (365 * yearOfEra + yearOfEra / 4 - yearOfEra / 100)
  let shifted := (5 * dayOfYear + 2) / 153
  let month := if shifted < 10 then shifted + 3 else shifted - 9
  let year := 400 * (day / 146097) + yearOfEra + (if month ≤ 2 then 1 else 0)
  let time := seconds % 86400
  ofParts? year month (dayOfYear - (153 * shifted + 2) / 5 + 1) (time / 3600) (time / 60 % 60)
    (time % 60) nanosecond

def encode (t : Timestamp) : Value := .text t.text

def decode? (v : Value) : Option Timestamp := v.text?.bind ofText?

end Timestamp

end OracleMarkets
