import OracleMarkets.Yaml.Block
import OracleMarkets.Yaml.Flow
import OracleMarkets.Yaml.Tag

/-!
# Tokens

The marks, names and scalars of a text in their order.  The ends of block collections are tokens,
too, and so are their starts and the starts of keys, though no character stands for them: that a
scalar is a key is known only when a colon follows it, and then the tokens are put in front of it.
-/

namespace OracleMarkets.Yaml

/-- How a scalar is written. -/
inductive Style where
  | plain
  | quoted
  | literal
  | folded
deriving DecidableEq, Repr

/-- A mark, a name or a scalar of a text. -/
inductive Token where
  | directive (d : Directive)
  | documentStart
  | documentEnd
  | sequenceStart
  | mappingStart
  | blockEnd
  | flowSequenceStart
  | flowSequenceEnd
  | flowMappingStart
  | flowMappingEnd
  | item
  | comma
  | key
  | value
  | alias (name : String)
  | anchor (name : String)
  | tag (t : Tag)
  | scalar (style : Style) (text : String)
deriving DecidableEq, Repr

/-- Where a key may have begun. -/
structure KeyPlace where
  number : Nat
  line : Nat
  column : Nat
  /-- Whether nothing but a key may stand there. -/
  isRequired : Bool

/-- What is known while tokens are read. -/
structure Scanner where
  cursor : Cursor
  tokens : List Token
  count : Nat
  /-- The columns of the open block collections, the inner ones first. -/
  columns : List Nat
  /-- Where a key may have begun on the level of the blocks, and before it on each level of the open
  flow collections, the inner ones first. -/
  places : List (Option KeyPlace)
  allowsKey : Bool

namespace Scanner

def ofText (s : List Char) : Scanner := ⟨.ofText s, [], 0, [], [none], true⟩

def inFlow (s : Scanner) : Bool := 1 < s.places.length

def least (s : Scanner) : Nat := (s.columns.head?.map (· + 1)).getD 0

def add (s : Scanner) (t : Token) : Scanner :=
  { s with tokens := t :: s.tokens, count := s.count + 1 }

def addAt (s : Scanner) (n : Nat) (t : Token) : Scanner :=
  let (later, earlier) := s.tokens.splitAt (s.count - n)
  { s with tokens := later ++ t :: earlier, count := s.count + 1 }

/-! ## Indentation -/

/-- Opens a block collection in a column behind that of the innermost one.  Its start follows the
first `n` tokens. -/
def openBlock (s : Scanner) (column n : Nat) (start : Token) : Scanner :=
  if s.inFlow || column < s.least then s
  else { s.addAt n start with columns := column :: s.columns }

def closeBlocks (s : Scanner) (least : Nat) : Scanner :=
  if s.inFlow then s
  else
    let closed := s.columns.takeWhile fun k ↦ decide (least ≤ k)
    { s with
      tokens := List.replicate closed.length .blockEnd ++ s.tokens
      count := s.count + closed.length
      columns := s.columns.drop closed.length }

/-! ## Keys -/

/-- The places of keys without the one on the innermost level.  It must not be required. -/
def dropKey? (s : Scanner) : Option Scanner :=
  match s.places with
  | place :: rest =>
    if place.any KeyPlace.isRequired then none else some { s with places := none :: rest }
  | [] => some s

/-- Remembers that a key may begin here.  It is required in the column of the innermost block
collection. -/
def saveKey? (s : Scanner) : Option Scanner :=
  if s.allowsKey then do
    let s ← s.dropKey?
    let place := ⟨s.count, s.cursor.line, s.cursor.column,
      !s.inFlow && s.columns.head? == some s.cursor.column⟩
    return { s with places := some place :: s.places.drop 1 }
  else some s

/-- A place where a key may have begun, unless it lies too far back: a key stands on one line and
has at most 1024 characters.  A place that is required must not lie too far back. -/
def keepFresh? (c : Cursor) : Option KeyPlace → Option (Option KeyPlace)
  | none => some none
  | some place =>
    if place.line < c.line ∨ place.column + 1024 < c.column then
      if place.isRequired then none else some none
    else some (some place)

def dropStaleKeys? (s : Scanner) : Option Scanner := do
  let places ← s.places.mapM (keepFresh? s.cursor)
  return { s with places := places }

/-! ## Tokens -/

/-- The start of the next token, after gaps, comments and breaks.  Where a key may begin in a block
there must be no tab before it.  A break lets a key begin in a block.  Each step takes at least one
character, so fuel above the length of the text is enough. -/
def skipIdle : Nat → Scanner → Scanner
  | 0, s => s
  | fuel + 1, s =>
    let c := if s.cursor.column = 0 ∧ s.cursor.rest.head? = some '\ufeff' then s.cursor.drop 1
      else s.cursor
    let c := c.skip fun x ↦ x == ' ' || ((s.inFlow || !s.allowsKey) && x == '\t')
    let c := c.skipComment
    if c.rest.head?.any isBreak then
      skipIdle fuel { s with cursor := c.next, allowsKey := s.allowsKey || !s.inFlow }
    else { s with cursor := c }

/-- Adds a token of `n` characters, after which a key may or may not begin. -/
def addMark (s : Scanner) (n : Nat) (t : Token) (allowsKey : Bool) : Scanner :=
  { s.add t with cursor := s.cursor.drop n, allowsKey := allowsKey }

/-- Adds a token that ends before a cursor, after which a key may or may not begin. -/
def addUpTo (s : Scanner) (c : Cursor) (t : Token) (allowsKey : Bool) : Scanner :=
  { s.add t with cursor := c, allowsKey := allowsKey }

def directive? (s : Scanner) (fuel : Nat) : Option Scanner := do
  let s ← (s.closeBlocks 0).dropKey?
  let (d, c) ← readDirective? fuel (s.cursor.drop 1)
  return s.addUpTo c (.directive d) false

def marker? (s : Scanner) (t : Token) : Option Scanner := do
  let s ← (s.closeBlocks 0).dropKey?
  return s.addMark 3 t false

def openFlow? (s : Scanner) (t : Token) : Option Scanner := do
  let s ← s.saveKey?
  let s := s.addMark 1 t true
  return { s with places := none :: s.places }

def closeFlow? (s : Scanner) (t : Token) : Option Scanner := do
  let s ← s.dropKey?
  let s := s.addMark 1 t false
  return { s with places := if s.inFlow then s.places.drop 1 else s.places }

def comma? (s : Scanner) : Option Scanner := do
  let s ← s.dropKey?
  return s.addMark 1 .comma true

/-- The dash of an item.  In a block it may stand where a key may begin. -/
def item? (s : Scanner) : Option Scanner := do
  if !s.inFlow && !s.allowsKey then none
  else
    let s ← (s.openBlock s.cursor.column s.count .sequenceStart).dropKey?
    return s.addMark 1 .item true

/-- The question mark of a key.  In a block it may stand where a key may begin. -/
def key? (s : Scanner) : Option Scanner := do
  if !s.inFlow && !s.allowsKey then none
  else
    let s ← (s.openBlock s.cursor.column s.count .mappingStart).dropKey?
    return s.addMark 1 .key !s.inFlow

/-- The colon before a value.  If a key may have begun on its level then it has, and its tokens are
put in front of it; otherwise, in a block, the colon may stand where a key may begin. -/
def value? (s : Scanner) : Option Scanner :=
  match s.places with
  | some place :: rest =>
    let s := (s.addAt place.number .key).openBlock place.column place.number .mappingStart
    some ({ s with places := none :: rest }.addMark 1 .value false)
  | _ =>
    if s.inFlow then some (s.addMark 1 .value false)
    else if !s.allowsKey then none
    else some ((s.openBlock s.cursor.column s.count .mappingStart).addMark 1 .value true)

def name? (s : Scanner) (token : String → Token) : Option Scanner := do
  let s ← s.saveKey?
  let (name, c) ← readName? (s.cursor.drop 1)
  return s.addUpTo c (token name) false

def tag? (s : Scanner) (fuel : Nat) : Option Scanner := do
  let s ← s.saveKey?
  let (t, c) ← readTag? s.inFlow fuel s.cursor
  return s.addUpTo c (.tag t) false

def block? (s : Scanner) (style : Style) (fuel : Nat) : Option Scanner := do
  let s ← s.dropKey?
  let (cs, c) ← Block.read? (style == .folded) s.least fuel (s.cursor.drop 1)
  return s.addUpTo c (.scalar style (String.ofList cs)) true

def quoted? (s : Scanner) (read : Nat → Cursor → Option (List Char × Cursor)) (fuel : Nat) :
    Option Scanner := do
  let s ← s.saveKey?
  let (cs, c) ← read fuel (s.cursor.drop 1)
  return s.addUpTo c (.scalar .quoted (String.ofList cs)) false

/-- A scalar without quotes, which may be a key.  If the line was broken after it, a key may
begin. -/
def plain? (s : Scanner) (fuel : Nat) : Option Scanner := do
  let s ← s.saveKey?
  let (cs, broken, c) ← readPlain s.inFlow s.least fuel .empty s.cursor
  return s.addUpTo c (.scalar .plain (String.ofList cs)) broken

def token? (s : Scanner) (fuel : Nat) : Option Scanner :=
  match s.cursor.rest with
  | [] => none
  | x :: rest =>
    let stands := atGap rest
    if s.cursor.column = 0 ∧ x = '%' then s.directive? fuel
    else if s.cursor.hasMarker '-' then s.marker? .documentStart
    else if s.cursor.hasMarker '.' then s.marker? .documentEnd
    else if x = '[' then s.openFlow? .flowSequenceStart
    else if x = '\x7b' then s.openFlow? .flowMappingStart
    else if x = ']' then s.closeFlow? .flowSequenceEnd
    else if x = '\x7d' then s.closeFlow? .flowMappingEnd
    else if x = ',' then s.comma?
    else if x = '-' ∧ stands then s.item?
    else if x = '?' ∧ (s.inFlow ∨ stands) then s.key?
    else if x = ':' ∧ (s.inFlow ∨ stands) then s.value?
    else if x = '*' then s.name? .alias
    else if x = '&' then s.name? .anchor
    else if x = '!' then s.tag? fuel
    else if x = '|' ∧ !s.inFlow then s.block? .literal fuel
    else if x = '>' ∧ !s.inFlow then s.block? .folded fuel
    else if x = '\'' then s.quoted? readSingle fuel
    else if x = '"' then s.quoted? readDouble fuel
    else if startsPlain s.inFlow (x :: rest) then s.plain? fuel
    else none

/-- All tokens of the text.  Each step takes at least one character, so fuel above the length of the
text is enough. -/
def run : Nat → Scanner → Option (List Token)
  | 0, _ => none
  | fuel + 1, s => do
    let s ← (s.skipIdle (fuel + 1)).dropStaleKeys?
    let s := s.closeBlocks (s.cursor.column + 1)
    if s.cursor.rest.isEmpty then
      let s ← (s.closeBlocks 0).dropKey?
      return s.tokens.reverse
    else
      let s ← s.token? (fuel + 1)
      run fuel s

end Scanner

/-- The tokens of a text, if all its characters may stand in a document. -/
def tokens? (s : String) : Option (List Token) :=
  let cs := s.toList
  if cs.all isPrintable then (Scanner.ofText (unifyBreaks cs)).run (cs.length + 2) else none

end OracleMarkets.Yaml
