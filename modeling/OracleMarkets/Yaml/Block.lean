import OracleMarkets.Yaml.Cursor

/-!
# Scalars of whole lines

A scalar that is begun by `|` or `>` is made of the indented lines that follow.  Its header may tell
how deep they are indented and what becomes of the breaks at its end.
-/

namespace OracleMarkets.Yaml.Block

/-- What becomes of the breaks at the end of a scalar. -/
inductive Chomping where
  | strip
  | clip
  | keep
deriving DecidableEq, Repr

/-- What the first line of a scalar says. -/
structure Header where
  chomping : Chomping
  /-- How much deeper the lines are than the collection around them. -/
  increment : Option Nat

def readChomping (c : Cursor) : Option Chomping × Cursor :=
  match c.rest with
  | '+' :: _ => (some .keep, c.drop 1)
  | '-' :: _ => (some .strip, c.drop 1)
  | _ => (none, c)

def readIncrement? (c : Cursor) : Option (Option Nat × Cursor) :=
  match c.rest with
  | x :: _ =>
    if x = '0' then none
    else if x.isDigit then some (some (x.toNat - 48), c.drop 1)
    else some (none, c)
  | [] => some (none, c)

def readHeader? (c : Cursor) : Option (Header × Cursor) := do
  let (first, c) := readChomping c
  let (increment, c) ← readIncrement? c
  let (second, c) := if first.isNone && increment.isSome then readChomping c else (none, c)
  let c ← c.endLine?
  return (⟨((first <|> second).getD .clip), increment⟩, c)

/-- The breaks of the empty lines at a cursor and the place after the spaces that indent the next
line, with the greatest column on the way.  If the indentation is known, no more spaces than that
are skipped; where it is not reached, there must be no tab. -/
def takeBreaks? (indent : Option Nat) (c : Cursor) : Option (List Char × Nat × Cursor) :=
  go c.rest c.line c.column 0 []
where
  /-- Goes on behind breaks that are known in reverse. -/
  go : List Char → Nat → Nat → Nat → List Char → Option (List Char × Nat × Cursor)
    | [], line, column, greatest, breaks =>
      some (breaks.reverse, max greatest column, ⟨[], line, column⟩)
    | x :: s, line, column, greatest, breaks =>
      let isBefore := indent.all fun n ↦ decide (column < n)
      if isBefore && x == ' ' then go s line (column + 1) greatest breaks
      else if isBefore && x == '\t' then none
      else if isBreak x then go s (line + 1) 0 (max greatest column) (x :: breaks)
      else some (breaks.reverse, max greatest column, ⟨x :: s, line, column⟩)

/-- What is known before a line of a scalar. -/
structure Pending where
  first : List Char
  more : List Char
  afterBlank : Bool

/-- What the breaks before a line stand for, given whether the line begins with a blank.  Where
lines are folded, a line feed between lines that begin with no blank is a space, or nothing if there
are empty lines. -/
def Pending.join (p : Pending) (folded beforeBlank : Bool) : List Char :=
  if folded && p.first == ['\n'] && !p.afterBlank && !beforeBlank then
    if p.more.isEmpty then [' '] else p.more
  else p.first ++ p.more

def Pending.close (p : Pending) : Chomping → List Char
  | .strip => []
  | .clip => p.first
  | .keep => p.first ++ p.more

/-- The characters of the lines in column `indent`.  Each step takes at least one character, so fuel
above the length of the text is enough. -/
def readLines (folded : Bool) (chomping : Chomping) (indent : Nat) :
    Nat → Pending → Cursor → Option (List Char × Cursor)
  | 0, _, _ => none
  | fuel + 1, p, c =>
    if c.column ≠ indent ∨ c.rest = [] then some (p.close chomping, c)
    else do
      let beforeBlank := c.rest.head?.any isGap
      let (content, c) := c.span fun x ↦ !isBreak x
      let first := c.rest.take 1
      let (more, _, c) ← takeBreaks? (some indent) c.next
      let (cs, rest) ← readLines folded chomping indent fuel ⟨first, more, beforeBlank⟩ c
      return (p.join folded beforeBlank ++ content ++ cs, rest)

/-- A scalar after its mark, in a collection whose parts stand in column `least` or behind it. -/
def read? (folded : Bool) (least fuel : Nat) (c : Cursor) : Option (List Char × Cursor) := do
  let (header, c) ← readHeader? c
  let indent := header.increment.map fun n ↦ (least - 1) + n
  let (breaks, greatest, c) ← takeBreaks? indent c
  let indent := indent.getD (max greatest (max least 1))
  readLines folded header.chomping indent fuel ⟨[], breaks, false⟩ c

end OracleMarkets.Yaml.Block
