import OracleMarkets.Decimal.Read
import OracleMarkets.Document.Value

/-!
# Scalars without quotes

What a YAML scalar without quotes stands for.  Each kind has a reader of its own, for where that
kind is asked for; `value?` tries them in turn, for where any value may stand.
-/

namespace OracleMarkets.Yaml.Scalar

def isNullWord (s : String) : Bool := s ∈ ["~", "null", "Null", "NULL"]

def bool? (s : String) : Option Bool :=
  if s ∈ ["true", "True", "TRUE"] then some true
  else if s ∈ ["false", "False", "FALSE"] then some false
  else none

def baseDigit? (c : Char) : Option Nat :=
  if c.isDigit then some (c.toNat - 48)
  else if 'a' ≤ c ∧ c ≤ 'f' then some (c.toNat - 87)
  else if 'A' ≤ c ∧ c ≤ 'F' then some (c.toNat - 55)
  else none

/-- The number that digits of the given base stand for; there is at least one digit. -/
def inBase? (base : Nat) : List Char → Option Nat
  | [] => none
  | ds => ds.foldlM (fun n c ↦ do
      let d ← baseDigit? c
      if d < base then some (base * n + d) else none) 0

def unsigned : List Char → List Char
  | '-' :: s => s
  | '+' :: s => s
  | s => s

def unpositive : List Char → List Char
  | '+' :: s => s
  | s => s

/-- Whether the scalar is made of digits with a superfluous zero in front.  Such a scalar is a
text. -/
def isZeroLed (s : List Char) : Bool :=
  match unsigned s with
  | '0' :: c :: rest => (c :: rest).all Char.isDigit
  | _ => false

/-- The magnitude of an integer without its sign: hexadecimal, octal, binary or decimal. -/
def magnitude? : List Char → Option Nat
  | '0' :: 'x' :: ds => inBase? 16 ds
  | '0' :: 'o' :: ds => inBase? 8 ds
  | '0' :: 'b' :: ds => inBase? 2 ds
  | ds => inBase? 10 ds

/-- The natural number that the scalar stands for, with or without a plus sign. -/
def natural? (s : String) : Option Nat :=
  let cs := s.toList
  if isZeroLed cs then none else magnitude? (unpositive cs)

/-- The magnitude of the number that the scalar stands for with a minus sign. -/
def negated? (s : String) : Option Nat :=
  let cs := s.toList
  if isZeroLed cs then none
  else match cs with
    | '-' :: ds => magnitude? ds
    | _ => none

def count? (s : String) : Option Nat := (natural? s).filter fun n ↦ decide (n < 0x10000000000000000)

/-- A decimal with an optional point and exponent: digits stand before or after the point. -/
def decimal? (s : List Char) : Option Float := do
  let (negative, s) := match s with
    | '-' :: s => (true, s)
    | '+' :: s => (false, s)
    | s => (false, s)
  let (whole, s) := Decimal.spanDigits s
  let (fraction, s) := match s with
    | '.' :: s => Decimal.spanDigits s
    | s => ([], s)
  if whole = [] ∧ fraction = [] then none
  else do
    let (exponent, rest) ← Decimal.readExponent s
    if rest ≠ [] then none
    else
      let x := Decimal.nearest (Decimal.ofDigits (whole ++ fraction)) (exponent - fraction.length)
      return if negative then -x else x

/-- The double that the scalar stands for: an infinity, not a number, or a finite decimal. -/
def float? (s : String) : Option Float :=
  if s ∈ [".inf", ".Inf", ".INF", "+.inf", "+.Inf", "+.INF"] then some (1.0 / 0.0)
  else if s ∈ ["-.inf", "-.Inf", "-.INF"] then some (-1.0 / 0.0)
  else if s ∈ [".nan", ".NaN", ".NAN"] then some (0.0 / 0.0)
  else match s.toList with
    | '+' :: '+' :: _ | '+' :: '-' :: _ => none
    | cs => (decimal? (unpositive cs)).filter Float.isFinite

/-- The integer that the scalar stands for, if it stands for one of at most 128 bits.  Beyond 64
bits it cannot be read. -/
def integer? (s : String) : Option Value :=
  match natural? s, negated? s with
  | some n, _ =>
    if n < 0x10000000000000000 then some (.int n)
    else if n < 0x100000000000000000000000000000000 then some .unreadable
    else none
  | none, some n =>
    if n ≤ 0x8000000000000000 then some (.int (-n))
    else if n ≤ 0x80000000000000000000000000000000 then some .unreadable
    else none
  | none, none => none

def value (s : String) : Value :=
  if s = "" || isNullWord s then .null
  else match bool? s, integer? s with
    | some b, _ => .bool b
    | none, some v => v
    | none, none =>
      match if isZeroLed s.toList then none else float? s with
      | some x => .number (.float x)
      | none => .text s

end OracleMarkets.Yaml.Scalar
