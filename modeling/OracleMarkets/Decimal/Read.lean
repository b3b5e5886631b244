import OracleMarkets.Decimal.Layout

/-!
# Reading decimals

A decimal reads as the nearest double.  Very long exponents are cut off before the power of ten is
computed: beyond `10 ^ 400` every double is infinite, below `10 ^ (-400)` every double is zero.
-/

namespace OracleMarkets.Decimal

def digitValue (c : Char) : Nat := c.toNat - '0'.toNat

def ofDigits (ds : List Char) : Nat := ds.foldl (fun n c ↦ 10 * n + digitValue c) 0

/-- The number of which a text is the decimal text; no other text of that number is taken. -/
def canonical? (s : List Char) : Option Nat :=
  if digits (ofDigits s) = s then some (ofDigits s) else none

/-- The double nearest to `m * 10 ^ e`. -/
def nearest (m : Nat) (e : Int) : Float :=
  if m = 0 then 0.0
  else
    let top := e + (digits m).length
    if 400 < top then 1.0 / 0.0
    else if top < -400 then 0.0
    else Float.ofScientific m (decide (e < 0)) e.natAbs

def spanDigits (s : List Char) : List Char × List Char :=
  (s.takeWhile Char.isDigit, s.dropWhile Char.isDigit)

/-- An exponent part such as `e-7`: its value and the rest of the text.  A text that has no
exponent part stands for the exponent zero, and an `e` without digits is refused. -/
def readExponent : List Char → Option (Int × List Char)
  | c :: s =>
    if c = 'e' ∨ c = 'E' then
      let (negative, s) := match s with
        | '-' :: s => (true, s)
        | '+' :: s => (false, s)
        | s => (false, s)
      match spanDigits s with
      | ([], _) => none
      | (ds, rest) => some (if negative then -(ofDigits ds : Int) else ofDigits ds, rest)
    else some (0, c :: s)
  | [] => some (0, [])

end OracleMarkets.Decimal
