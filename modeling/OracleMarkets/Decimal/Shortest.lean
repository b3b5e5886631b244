/-!
# The shortest decimal of a double

A finite double is `m * 2 ^ q`.  The reals that round to it form an interval around it, and its
shortest decimal is the decimal with the fewest digits in that interval, the nearest to the double
among those.  Everything is computed exactly on natural numbers.
-/

namespace OracleMarkets.Decimal

/-- A finite non-negative double, `m * 2 ^ q`. -/
structure Binary where
  m : Nat
  q : Int
  /-- Whether the gap to the double below is half the gap to the double above. -/
  narrowBelow : Bool

def Binary.ofBits (b : UInt64) : Binary :=
  let e := ((b >>> 52) &&& 0x7FF).toNat
  let f := (b &&& 0xFFFFFFFFFFFFF).toNat
  if e = 0 then ⟨f, -1074, false⟩
  else ⟨0x10000000000000 + f, (e : Int) - 1075, f == 0 && decide (1 < e)⟩

/-- The power of two. -/
def two (n : Nat) : Nat := Nat.pow 2 n

def ten (n : Nat) : Nat := Nat.pow 10 n

/-- The decimal `digits * 10 ^ exp`. -/
structure Scaled where
  digits : Nat
  /-- The exponent of ten of the last digit. -/
  exp : Int
deriving DecidableEq, Repr

/-- Compares `a * 10 ^ i` with `n * 2 ^ j`. -/
def compareScaled (a : Nat) (i : Int) (n : Nat) (j : Int) : Ordering :=
  compare (a * ten i.toNat * two (-j).toNat) (n * two j.toNat * ten (-i).toNat)

/-- Whether a decimal lies among the reals that round to `x`, to nearest with ties to even. -/
def Binary.readsBack (x : Binary) (d : Scaled) : Bool :=
  let low := if x.narrowBelow then 4 * x.m - 1 else 4 * x.m - 2
  let high := 4 * x.m + 2
  let closed := x.m % 2 == 0
  let atLow := compareScaled d.digits d.exp low (x.q - 2)
  let atHigh := compareScaled d.digits d.exp high (x.q - 2)
  (atLow == .gt || (closed && atLow == .eq)) && (atHigh == .lt || (closed && atHigh == .eq))

/-- The largest grid point `n * 10 ^ e` that is at most `x`, as `n`. -/
def Binary.floorOn (x : Binary) (e : Int) : Nat :=
  (x.m * two x.q.toNat * ten (-e).toNat) / (two (-x.q).toNat * ten e.toNat)

/-- Moves `k` up, at most `fuel` steps, to a power of ten above `x`. -/
def Binary.scaleFrom (x : Binary) : Nat → Int → Int
  | 0, k => k
  | fuel + 1, k => if compareScaled 1 k x.m x.q = .gt then k else x.scaleFrom fuel (k + 1)

/-- The least `k` with `x < 10 ^ k`, for a positive `x`.  The binary logarithm gives a start that
is not too high and is off by a step or two. -/
def Binary.scale (x : Binary) : Int :=
  x.scaleFrom 8 (((x.m.log2 : Int) + x.q) * 30103 / 100000 - 1)

/-- Which of two equally near decimals of the same length is taken. -/
inductive Tie where
  | toEven
  | up
deriving DecidableEq, Repr

/-- Of the two neighbours of `x` on the grid of `10 ^ e`, the nearest that reads back. -/
def Binary.onGrid? (x : Binary) (tie : Tie) (e : Int) : Option Scaled :=
  let n := x.floorOn e
  let below : Scaled := ⟨n, e⟩
  let above : Scaled := ⟨n + 1, e⟩
  match x.readsBack below, x.readsBack above with
  | false, false => none
  | true, false => some below
  | false, true => some above
  | true, true =>
    match compareScaled (2 * n + 1) e (2 * x.m) x.q, tie with
    | .gt, _ => some below
    | .lt, _ => some above
    | .eq, .up => some above
    | .eq, .toEven => some (if n % 2 = 0 then below else above)

/-- A decimal without the zeros at the end of its digits, of which at most `fuel` are taken off. -/
def Scaled.strip : Nat → Scaled → Scaled
  | 0, d => d
  | fuel + 1, d =>
    if d.digits ≠ 0 ∧ d.digits % 10 = 0 then Scaled.strip fuel ⟨d.digits / 10, d.exp + 1⟩ else d

/-- The exact decimal value of `x`. -/
def Binary.exact (x : Binary) : Scaled :=
  ⟨x.m * two x.q.toNat * Nat.pow 5 (-x.q).toNat, -((-x.q).toNat : Int)⟩

/-- The shortest decimal that reads back to a positive `x`: grids of one digit, two digits and so
on are tried, and seventeen digits suffice for a double. -/
def Binary.shortest (x : Binary) (tie : Tie) : Scaled :=
  let k := x.scale
  match (List.range 17).findSome? (fun (i : Nat) ↦ x.onGrid? tie (k - 1 - (i : Int))) with
  | some d => d.strip 20
  | none => x.exact

end OracleMarkets.Decimal
