/-!
# Places in a text

A cursor is a place in a text with the number of its line and of its column.  What stands between
two pieces of a scalar, blanks and line breaks, is a gap, and a gap that breaks the line folds to
fewer characters than it has.
-/

namespace OracleMarkets.Yaml

/-! ## Characters -/

def isGap (c : Char) : Bool := c == ' ' || c == '\t'

/-- Whether a character ends a line.  Other breaks than these are line feeds by `unifyBreaks`. -/
def isBreak (c : Char) : Bool := c == '\n' || c == '\u2028' || c == '\u2029'

/-- Whether a text stands before a gap, the end of its line or the end of the document. -/
def atGap : List Char → Bool
  | [] => true
  | c :: _ => isGap c || isBreak c

def atBreak : List Char → Bool
  | [] => true
  | c :: _ => isBreak c

def isWord (c : Char) : Bool := c.isAlphanum || c == '_' || c == '-'

def isFlowMark (c : Char) : Bool := c == ',' || c == '[' || c == ']' || c == '\x7b' || c == '\x7d'

def hexDigit? (c : Char) : Option Nat :=
  if c.isDigit then some (c.toNat - 48)
  else if 'a' ≤ c ∧ c ≤ 'f' then some (c.toNat - 87)
  else if 'A' ≤ c ∧ c ≤ 'F' then some (c.toNat - 55)
  else none

def isPrintable (c : Char) : Bool :=
  let n := c.toNat
  n == 0x09 || n == 0x0A || n == 0x0D || (0x20 ≤ n && n ≤ 0x7E) || n == 0x85 ||
    (0xA0 ≤ n && n ≤ 0xFFFD) || 0x10000 ≤ n

/-- A text in which carriage returns, with or without a line feed, and next lines are line feeds. -/
def unifyBreaks : List Char → List Char
  | [] => []
  | '\r' :: '\n' :: s => '\n' :: unifyBreaks s
  | '\r' :: s => '\n' :: unifyBreaks s
  | '\u0085' :: s => '\n' :: unifyBreaks s
  | c :: s => c :: unifyBreaks s

/-! ## Cursors -/

/-- A place in a text. -/
structure Cursor where
  rest : List Char
  line : Nat
  column : Nat

namespace Cursor

def ofText (s : List Char) : Cursor := ⟨s, 0, 0⟩

def next (c : Cursor) : Cursor :=
  match c.rest with
  | [] => c
  | x :: s => if isBreak x then ⟨s, c.line + 1, 0⟩ else ⟨s, c.line, c.column + 1⟩

def drop (n : Nat) (c : Cursor) : Cursor := ⟨c.rest.drop n, c.line, c.column + n⟩

/-- The characters up to the first one that is not `p`, and the place after them.  A break is not
`p`. -/
def span (p : Char → Bool) (c : Cursor) : List Char × Cursor :=
  let cs := c.rest.takeWhile p
  (cs, c.drop cs.length)

/-- The place after the characters that are `p`.  A break is not `p`. -/
def skip (p : Char → Bool) (c : Cursor) : Cursor := (c.span p).2

def expect? (x : Char) (c : Cursor) : Option Cursor :=
  if c.rest.head? = some x then some (c.drop 1) else none

def skipLine (c : Cursor) : Cursor := c.skip fun x ↦ !isBreak x

def skipComment (c : Cursor) : Cursor := if c.rest.head? = some '#' then c.skipLine else c

/-- The start of the next line, if nothing but gaps and a comment stands before it. -/
def endLine? (c : Cursor) : Option Cursor :=
  let c := (c.skip isGap).skipComment
  if atBreak c.rest then some c.next else none

/-- Whether the line begins with the three characters `x` on their own. -/
def hasMarker (x : Char) (c : Cursor) : Bool :=
  c.column == 0 && match c.rest with
    | a :: b :: d :: s => a == x && b == x && d == x && atGap s
    | _ => false

def isAtMarker (c : Cursor) : Bool := c.hasMarker '-' || c.hasMarker '.'

end Cursor

/-! ## Gaps -/

/-- What stands between two pieces of a scalar. -/
structure Gap where
  blanks : List Char
  breaks : List Char

namespace Gap

def empty : Gap := ⟨[], []⟩

def isBroken (g : Gap) : Bool := !g.breaks.isEmpty

/-- What a gap stands for.  A single line feed is a space, and of several breaks all count but a
line feed in front; blanks count only in a gap without breaks. -/
def fold (g : Gap) : List Char :=
  match g.breaks with
  | [] => g.blanks
  | ['\n'] => [' ']
  | '\n' :: breaks => breaks
  | breaks => breaks

end Gap

/-- The gap at a cursor and the place after it.  After a break a tab has to stand in column `least`
or behind it. -/
def Cursor.takeGap (least : Nat) (c : Cursor) : Option (Gap × Cursor) :=
  go c.rest c.line c.column .empty
where
  /-- Goes on behind a gap of which the blanks and the breaks are known in reverse. -/
  go : List Char → Nat → Nat → Gap → Option (Gap × Cursor)
    | [], line, column, g => some (⟨g.blanks.reverse, g.breaks.reverse⟩, ⟨[], line, column⟩)
    | x :: s, line, column, g =>
      if isBreak x then go s (line + 1) 0 { g with breaks := x :: g.breaks }
      else if isGap x then
        if !g.isBroken then go s line (column + 1) { g with blanks := x :: g.blanks }
        else if x == '\t' && column < least then none
        else go s line (column + 1) g
      else some (⟨g.blanks.reverse, g.breaks.reverse⟩, ⟨x :: s, line, column⟩)

end OracleMarkets.Yaml
