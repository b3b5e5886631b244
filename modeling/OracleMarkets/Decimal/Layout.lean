import OracleMarkets.Decimal.Shortest

/-!
# Layouts of doubles

A `Layout` says how the shortest decimal of a double is laid out.  There are two of them: numbers
inside sentences (`Layout.inText`) and numbers of a JSON text (`Layout.inJson`).
-/

namespace OracleMarkets.Decimal

/-- How a shortest decimal is written. -/
structure Layout where
  /-- The decimal is written positionally if the exponent of its first digit lies in this closed
  range, and always if there is no range. -/
  positional : Option (Int × Int)
  pointZero : Bool
  tie : Tie

/-- Numbers in sentences: never an exponent, and whole numbers without a point. -/
def Layout.inText : Layout := ⟨none, false, .up⟩

/-- Numbers in JSON: an exponent with its sign below `0.00001` and from `1e+16` on, and otherwise a
point with at least one digit after it. -/
def Layout.inJson : Layout := ⟨some (-5, 15), true, .toEven⟩

def digits (n : Nat) : List Char := Nat.toDigits 10 n

/-- The digits with a point so that the first digit has the exponent `e`. -/
def positionalText (pointZero : Bool) (ds : List Char) (e : Int) : List Char :=
  if e < 0 then '0' :: '.' :: (List.replicate (-e - 1).toNat '0' ++ ds)
  else
    let whole := e.toNat + 1
    if ds.length ≤ whole then
      ds ++ List.replicate (whole - ds.length) '0' ++ (if pointZero then ['.', '0'] else [])
    else ds.take whole ++ '.' :: ds.drop whole

/-- The digits with a point after the first one, and the exponent `e` with its sign. -/
def exponentText (ds : List Char) (e : Int) : List Char :=
  let mantissa := match ds with
    | [] => []
    | [d] => [d]
    | d :: rest => d :: '.' :: rest
  mantissa ++ 'e' :: (if e < 0 then '-' else '+') :: digits e.natAbs

def Layout.positioned (f : Layout) (d : Scaled) : List Char :=
  let ds := digits d.digits
  let e := d.exp + ((ds.length : Int) - 1)
  match f.positional with
  | none => positionalText f.pointZero ds e
  | some (low, high) =>
    if low ≤ e ∧ e ≤ high then positionalText f.pointZero ds e else exponentText ds e

def Layout.magnitude (f : Layout) (b : UInt64) : List Char :=
  let x := Binary.ofBits b
  if x.m = 0 then '0' :: (if f.pointZero then ['.', '0'] else [])
  else f.positioned (x.shortest f.tie)

def isNegative (x : Float) : Bool := x.toBits >>> 63 == 1

/-- The text of a double; zero keeps its sign. -/
def Layout.render (f : Layout) (x : Float) : String :=
  if x.isNaN then "NaN"
  else
    let sign := if isNegative x then ['-'] else []
    if x.isInf then String.ofList (sign ++ ['i', 'n', 'f'])
    else String.ofList (sign ++ f.magnitude x.toBits)

end OracleMarkets.Decimal
