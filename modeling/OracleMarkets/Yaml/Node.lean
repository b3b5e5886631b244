import OracleMarkets.Yaml.Token

/-!
# Nodes

A node is a scalar or a collection with its tag, or an alias: a place where a node that was named by
an anchor stands once more.  What a scalar stands for is not settled yet.
-/

namespace OracleMarkets.Yaml

/-- A part of a document. -/
inductive Node where
  /-- A node that stands somewhere else, by the number of its anchor. -/
  | alias (anchor : Nat)
  | scalar (anchor : Option Nat) (tag : Option String) (style : Style) (text : String)
  | sequence (anchor : Option Nat) (tag : Option String) (items : List Node)
  | mapping (anchor : Option Nat) (tag : Option String) (fields : List (Node × Node))

namespace Node

def empty : Node := .scalar none none .plain ""

instance : Inhabited Node := ⟨empty⟩

mutual

/-- The number of scalars, aliases and ends of collections of a node. -/
def size : Node → Nat
  | .alias _ | .scalar .. => 1
  | .sequence _ _ items => 2 + sizeList items
  | .mapping _ _ fields => 2 + sizeFields fields

def sizeList : List Node → Nat
  | [] => 0
  | n :: rest => size n + sizeList rest

def sizeFields : List (Node × Node) → Nat
  | [] => 0
  | (k, v) :: rest => size k + size v + sizeFields rest

end

mutual

/-- The nodes with an anchor and the numbers of their anchors, in front of `acc`, the last one
first. -/
def anchored : Node → List (Nat × Node) → List (Nat × Node)
  | .alias _, acc => acc
  | .scalar anchor tag style text, acc => mark anchor (.scalar anchor tag style text) acc
  | .sequence anchor tag items, acc =>
    anchoredList items (mark anchor (.sequence anchor tag items) acc)
  | .mapping anchor tag fields, acc =>
    anchoredFields fields (mark anchor (.mapping anchor tag fields) acc)

def anchoredList : List Node → List (Nat × Node) → List (Nat × Node)
  | [], acc => acc
  | n :: rest, acc => anchoredList rest (anchored n acc)

def anchoredFields : List (Node × Node) → List (Nat × Node) → List (Nat × Node)
  | [], acc => acc
  | (k, v) :: rest, acc => anchoredFields rest (anchored v (anchored k acc))

def mark (anchor : Option Nat) (n : Node) (acc : List (Nat × Node)) : List (Nat × Node) :=
  match anchor with
  | some i => (i, n) :: acc
  | none => acc

end

end Node

/-! ## Reading -/

/-- What is known while nodes are made of tokens. -/
structure Composer where
  tokens : List Token
  /-- The names of anchors so far with their numbers. -/
  anchors : List (String × Nat)

abbrev Compose := StateT Composer Option

namespace Compose

def peek : Compose (Option Token) := do return (← get).tokens.head?

def skip : Compose Unit := modify fun c ↦ { c with tokens := c.tokens.drop 1 }

def isNext (ts : List Token) : Compose Bool := do return (← peek).any ts.contains

/-- The number of an anchor.  A name that is given again stands for the new node from then on.  The
number is the number of names before it. -/
def define (name : String) : Compose Nat := do
  let c ← get
  let n := c.anchors.length
  set { c with anchors := (name, n) :: c.anchors.filter (·.1 != name) }
  return n

def anchor : Compose (Option Nat) := do
  match ← peek with
  | some (.anchor name) =>
    skip
    return some (← define name)
  | _ => return none

def tag : Compose (Option Tag) := do
  match ← peek with
  | some (.tag t) =>
    skip
    return some t
  | _ => return none

def properties : Compose (Option Nat × Option Tag) := do
  match ← anchor with
  | some n => return (some n, ← tag)
  | none =>
    match ← tag with
    | some t => return (← anchor, some t)
    | none => return (none, none)

def tagText (handles : List (String × String)) (t : Tag) : Compose String :=
  if t.handle = "" then return t.suffix
  else match handles.lookup t.handle with
    | some front => return front ++ t.suffix
    | none => failure

def comma : Compose Unit := do
  if ← isNext [.comma] then skip else failure

def bareNode (anchor : Option Nat) (tag : Option String) : Compose Node :=
  if anchor.isSome || tag.isSome then return .scalar anchor tag .plain "" else failure

mutual

/-- The node in front.  Only in a block it may be a block collection, and only as a part of a
mapping a sequence whose items stand in the column of the keys.  Each third step takes at least one
token, so fuel above three times the number of tokens is enough. -/
def node (handles : List (String × String)) : Nat → (inBlock inMapping : Bool) → Compose Node
  | 0, _, _ => failure
  | fuel + 1, inBlock, inMapping => do
    match ← peek with
    | some (.alias name) =>
      skip
      match (← get).anchors.lookup name with
      | some n => return .alias n
      | none => failure
    | _ =>
      let (anchor, tag) ← properties
      let tag ← tag.mapM (tagText handles)
      match ← peek with
      | some .item =>
        if inMapping then return .sequence anchor tag (← flatItems handles fuel)
        else bareNode anchor tag
      | some (.scalar style text) =>
        skip
        return .scalar anchor (tag.filter (· ≠ "!")) style text
      | some .flowSequenceStart =>
        skip
        return .sequence anchor tag (← flowItems handles fuel true)
      | some .flowMappingStart =>
        skip
        return .mapping anchor tag (← flowFields handles fuel true)
      | some .sequenceStart =>
        if inBlock then
          skip
          return .sequence anchor tag (← items handles fuel)
        else bareNode anchor tag
      | some .mappingStart =>
        if inBlock then
          skip
          return .mapping anchor tag (← fields handles fuel)
        else bareNode anchor tag
      | _ => bareNode anchor tag

def nodeUnless (handles : List (String × String)) :
    Nat → List Token → (inMapping : Bool) → Compose Node
  | 0, _, _ => failure
  | fuel + 1, ts, inMapping => do
    if ← isNext ts then return Node.empty else node handles fuel true inMapping

def items (handles : List (String × String)) : Nat → Compose (List Node)
  | 0 => failure
  | fuel + 1 => do
    match ← peek with
    | some .item =>
      skip
      let v ← nodeUnless handles fuel [.item, .blockEnd] false
      return v :: (← items handles fuel)
    | some .blockEnd =>
      skip
      return []
    | _ => failure

def flatItems (handles : List (String × String)) : Nat → Compose (List Node)
  | 0 => failure
  | fuel + 1 => do
    match ← peek with
    | some .item =>
      skip
      let v ← nodeUnless handles fuel [.item, .key, .value, .blockEnd] false
      return v :: (← flatItems handles fuel)
    | _ => return []

def fields (handles : List (String × String)) : Nat → Compose (List (Node × Node))
  | 0 => failure
  | fuel + 1 => do
    match ← peek with
    | some .key =>
      skip
      let k ← nodeUnless handles fuel [.key, .value, .blockEnd] true
      let v ← match ← peek with
        | some .value => do
          skip
          nodeUnless handles fuel [.key, .value, .blockEnd] true
        | _ => pure Node.empty
      return (k, v) :: (← fields handles fuel)
    | some .blockEnd =>
      skip
      return []
    | _ => failure

/-- The items of a flow sequence up to its end.  An item may be a single field. -/
def flowItems (handles : List (String × String)) : Nat → (isFirst : Bool) → Compose (List Node)
  | 0, _ => failure
  | fuel + 1, isFirst => do
    if ← isNext [.flowSequenceEnd] then
      skip
      return []
    else
      unless isFirst do comma
      match ← peek with
      | some .flowSequenceEnd =>
        skip
        return []
      | some .key =>
        skip
        let field ← flowField handles fuel
        return .mapping none none [field] :: (← flowItems handles fuel false)
      | _ =>
        let v ← node handles fuel false false
        return v :: (← flowItems handles fuel false)

/-- A field that is an item of a flow sequence.  Where its key is missing, the token behind it is
lost. -/
def flowField (handles : List (String × String)) : Nat → Compose (Node × Node)
  | 0 => failure
  | fuel + 1 => do
    let k ←
      if ← isNext [.value, .comma, .flowSequenceEnd] then do
        skip
        pure Node.empty
      else node handles fuel false false
    return (k, ← flowValue handles fuel .flowSequenceEnd)

/-- The value of a field in a flow collection with the given end; it may be missing. -/
def flowValue (handles : List (String × String)) : Nat → (stop : Token) → Compose Node
  | 0, _ => failure
  | fuel + 1, stop => do
    if ← isNext [.value] then
      skip
      if ← isNext [.comma, stop] then return Node.empty else node handles fuel false false
    else return Node.empty

/-- The fields of a flow mapping up to its end.  A key may stand without a value. -/
def flowFields (handles : List (String × String)) :
    Nat → (isFirst : Bool) → Compose (List (Node × Node))
  | 0, _ => failure
  | fuel + 1, isFirst => do
    if ← isNext [.flowMappingEnd] then
      skip
      return []
    else
      unless isFirst do comma
      match ← peek with
      | some .flowMappingEnd =>
        skip
        return []
      | some .key =>
        skip
        let k ←
          if ← isNext [.value, .comma, .flowMappingEnd] then pure Node.empty
          else node handles fuel false false
        let v ← flowValue handles fuel .flowMappingEnd
        return (k, v) :: (← flowFields handles fuel false)
      | _ =>
        let k ← node handles fuel false false
        return (k, Node.empty) :: (← flowFields handles fuel false)

end

/-! ## Documents -/

/-- What is said before a document: whether its version is told, and what handles stand for. -/
structure Preamble where
  hasVersion : Bool
  handles : List (String × String)

/-- Adds a directive.  The version is 1.1 or 1.2 and told at most once, as is what a handle stands
for. -/
def Preamble.add? (p : Preamble) : Directive → Option Preamble
  | .version major minor =>
    if p.hasVersion ∨ major ≠ 1 ∨ (minor ≠ 1 ∧ minor ≠ 2) then none
    else some { p with hasVersion := true }
  | .handle name front =>
    if p.handles.any (·.1 == name) then none
    else some { p with handles := (name, front) :: p.handles }

def directives? (p : Preamble) : List Token → Option (Preamble × List Token)
  | .directive d :: rest => do
    let p ← p.add? d
    directives? p rest
  | rest => some (p, rest)

def standardHandles : List (String × String) := [("!", "!"), ("!!", "tag:yaml.org,2002:")]

def endsDocument : Token → Bool
  | .directive _ | .documentStart | .documentEnd => true
  | _ => false

/-- The node of a document that begins here; nothing may follow it but marks of its end. -/
def document? (handles : List (String × String)) (ts : List Token) : Option Node := do
  let (n, c) ← (node handles (3 * ts.length + 3) true false).run ⟨ts, []⟩
  if c.tokens.all (· == .documentEnd) then some n else none

end Compose

def Node.ofTokens? (ts : List Token) : Option Node := do
  match ts with
  | [] => return Node.empty
  | t :: _ =>
    if t == .documentStart || t matches .directive _ then
      let (p, rest) ← Compose.directives? ⟨false, []⟩ ts
      let handles := p.handles ++ Compose.standardHandles
      match rest with
      | .documentStart :: rest =>
        if rest.head?.all Compose.endsDocument then
          if rest.all (· == .documentEnd) then return Node.empty else none
        else Compose.document? handles rest
      | _ => none
    else Compose.document? Compose.standardHandles ts

end OracleMarkets.Yaml
