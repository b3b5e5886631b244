import OracleMarkets.Yaml.Cursor

/-!
# Tags and names

Anchors and aliases have names; a tag has a handle, which stands for the front of the tag, and a
suffix.  A tag that is written in full has an empty handle.
-/

namespace OracleMarkets.Yaml

def readName? (c : Cursor) : Option (String × Cursor) :=
  let (name, c) := c.span isWord
  if name.isEmpty then none
  else if atGap c.rest || c.rest.head?.any "?:,]\x7d%@\u0060".toList.contains then
    some (String.ofList name, c)
  else none

/-! ## Tags -/

/-- A tag as it is written. -/
structure Tag where
  handle : String
  suffix : String
deriving DecidableEq, Repr

/-- Whether a character may stand in a tag.  In a tag in full there may be some flow marks, too. -/
def isTagCharacter (full : Bool) (c : Char) : Bool :=
  isWord c || ";/?:@&=+$.!~*'()".toList.contains c || (full && ",[]".toList.contains c)

/-- The number of octets that a character has, by the first of them. -/
def octetCount? (first : Nat) : Option Nat :=
  if first < 0x80 then some 1
  else if 0xC0 ≤ first ∧ first < 0xE0 then some 2
  else if 0xE0 ≤ first ∧ first < 0xF0 then some 3
  else if 0xF0 ≤ first ∧ first < 0xF8 then some 4
  else none

def readOctet? (c : Cursor) : Option (Nat × Cursor) :=
  match c.rest with
  | '%' :: a :: b :: _ => do
    let a ← hexDigit? a
    let b ← hexDigit? b
    return (16 * a + b, c.drop 3)
  | _ => none

def readOctets? : Nat → Cursor → Option (List Char × Cursor)
  | 0, c => some ([], c)
  | n + 1, c => do
    let (octet, c) ← readOctet? c
    if 0x80 ≤ octet ∧ octet < 0xC0 then
      let (octets, c) ← readOctets? n c
      return (Char.ofNat octet :: octets, c)
    else none

/-- The characters of a tag; a character that is written by its octets counts as these.  Each step
takes at least one character, so fuel above the length of the text is enough. -/
def readTagCharacters (full : Bool) : Nat → Cursor → Option (List Char × Cursor)
  | 0, _ => none
  | fuel + 1, c =>
    match c.rest with
    | '%' :: _ => do
      let (first, c) ← readOctet? c
      let n ← octetCount? first
      let (octets, c) ← readOctets? (n - 1) c
      let (cs, c) ← readTagCharacters full fuel c
      return (Char.ofNat first :: octets ++ cs, c)
    | x :: _ =>
      if isTagCharacter full x then do
        let (cs, c) ← readTagCharacters full fuel (c.drop 1)
        return (x :: cs, c)
      else some ([], c)
    | [] => some ([], c)

def beforeZero (s : List Char) : String := String.ofList (s.takeWhile (· ≠ '\x00'))

def readSuffix? (full : Bool) (fuel : Nat) (c : Cursor) : Option (String × Cursor) := do
  let (cs, c) ← readTagCharacters full fuel c
  if cs.isEmpty then none else some (beforeZero cs, c)

/-- What may be a handle: an exclamation mark, a word, and one more mark. -/
def readHandle? (c : Cursor) : Option (List Char × Cursor) := do
  let c ← c.expect? '!'
  let (word, c) := c.span isWord
  match c.expect? '!' with
  | some c => return ('!' :: word ++ ['!'], c)
  | none => return ('!' :: word, c)

/-- Whether a text that begins like a handle is one: there is a mark at both ends. -/
def isHandle (s : List Char) : Bool := 1 < s.length && s.getLast? == some '!'

def readFullTag? (fuel : Nat) (c : Cursor) : Option (Tag × Cursor) := do
  let (suffix, c) ← readSuffix? true fuel c
  let c ← c.expect? '>'
  return (⟨"", suffix⟩, c)

/-- A tag with a handle.  What begins like a handle and is none belongs to the suffix of the handle
`!`, and the tag `!` is written in full. -/
def readShortTag? (fuel : Nat) (c : Cursor) : Option (Tag × Cursor) := do
  let (handle, c) ← readHandle? c
  if isHandle handle then
    let (suffix, c) ← readSuffix? false fuel c
    return (⟨String.ofList handle, suffix⟩, c)
  else
    let (cs, c) ← readTagCharacters false fuel c
    let suffix := beforeZero (handle.drop 1 ++ cs)
    return (if suffix = "" then ⟨"", "!"⟩ else ⟨"!", suffix⟩, c)

/-- A tag, up to the gap after it.  In a flow collection a comma may follow as well. -/
def readTag? (flow : Bool) (fuel : Nat) (c : Cursor) : Option (Tag × Cursor) := do
  let (tag, c) ← match c.rest with
    | '!' :: '<' :: _ => readFullTag? fuel (c.drop 2)
    | _ => readShortTag? fuel c
  if atGap c.rest || (flow && c.rest.head? = some ',') then some (tag, c) else none

/-! ## Directives -/

/-- What is said of a document before it begins. -/
inductive Directive where
  | version (major minor : Nat)
  | handle (name front : String)
deriving DecidableEq, Repr

def readVersionNumber? (c : Cursor) : Option (Nat × Cursor) :=
  let (digits, c) := c.span Char.isDigit
  if digits.isEmpty ∨ 9 < digits.length then none
  else some (digits.foldl (fun n d ↦ 10 * n + (d.toNat - 48)) 0, c)

def readVersion? (c : Cursor) : Option (Directive × Cursor) := do
  let (major, c) ← readVersionNumber? (c.skip isGap)
  let c ← c.expect? '.'
  let (minor, c) ← readVersionNumber? c
  return (.version major minor, c)

def readHandleMeaning? (fuel : Nat) (c : Cursor) : Option (Directive × Cursor) := do
  let (name, c) ← readHandle? (c.skip isGap)
  if ¬ isHandle name ∧ name ≠ ['!'] then none
  else if ¬ c.rest.head?.any isGap then none
  else
    let (front, c) ← readSuffix? true fuel (c.skip isGap)
    if atGap c.rest then some (.handle (String.ofList name) front, c) else none

def readDirective? (fuel : Nat) (c : Cursor) : Option (Directive × Cursor) := do
  let (name, c) := c.span isWord
  if ¬ atGap c.rest then none
  else
    let (directive, c) ← match String.ofList name with
      | "YAML" => readVersion? c
      | "TAG" => readHandleMeaning? fuel c
      | _ => none
    let c ← c.endLine?
    return (directive, c)

end OracleMarkets.Yaml
