import OracleMarkets.Decimal.Read
import OracleMarkets.Document.Decode
import OracleMarkets.Document.Shape
import OracleMarkets.Yaml.Node
import OracleMarkets.Yaml.Scalar

/-!
# Reading YAML

A YAML text is read against a shape, which tells for each scalar what is asked for.  Aliases are
followed only where something is read, so a document may name a node within itself.  Collections lie
at most 128 deep in one another, and the number of aliases that are followed is bounded, too.
-/

namespace OracleMarkets.Yaml

def maxDepth : Nat := 128

def kindTag (kind : String) : String := "tag:yaml.org,2002:" ++ kind

/-! ## Scalars -/

/-- The text of a scalar that may stand for the given kind: it is written without quotes, or as
whole lines with the tag of the kind. -/
def literal? (kind : String) : Node → Option String
  | .scalar _ tag style text =>
    if style = .plain ∨ (style = .literal ∧ tag = some (kindTag kind)) then some text else none
  | _ => none

def scalarText? : Node → Option String
  | .scalar _ _ _ text => some text
  | _ => none

def isBlankNode : Node → Bool
  | .scalar _ _ .plain "" => true
  | _ => false

def isAbsentNode : Node → Bool
  | .scalar _ none .plain text => text == "" || Scalar.isNullWord text
  | .scalar _ (some tag) .plain text => tag == kindTag "null" && Scalar.isNullWord text
  | _ => false

/-- Whether a tag is one of the document's own kinds, which stand for no value. -/
def isLocalTag (tag : Option String) : Bool := tag.any (·.startsWith "!")

def scalarValue? (tag : Option String) (style : Style) (text : String) : Option Value :=
  if isLocalTag tag then none
  else if tag = some (kindTag "bool") then (Scalar.bool? text).map .bool
  else if tag = some (kindTag "int") then Scalar.integer? text
  else if tag = some (kindTag "float") then (Scalar.float? text).map fun x ↦ .number (.float x)
  else if tag = some (kindTag "null") then if Scalar.isNullWord text then some .null else none
  else if tag = none ∧ style = .plain then some (Scalar.value text)
  else some (.text text)

/-! ## Aliases -/

/-- Reads a part of a document; the state is how many more aliases may be followed. -/
abbrev Resolve := StateT Nat Option

def Resolve.ofOption {α : Type} (a : Option α) : Resolve α := fun n ↦ a.map (·, n)

def follow (anchored : List (Nat × Node)) : Node → Resolve Node
  | .alias i => do
    match ← get with
    | 0 => failure
    | n + 1 =>
      set n
      Resolve.ofOption (anchored.lookup i)
  | n => return n

/-! ## Values -/

/-- Any value, of which collections lie at most `depth` deep in one another.  Fields whose names are
no texts are not kept, since nothing can be read from them. -/
def anyValue (anchored : List (Nat × Node)) (depth : Nat) (node : Node) : Resolve Value := do
  match ← follow anchored node with
  | .scalar _ tag style text =>
    match scalarValue? tag style text with
    | some .unreadable => failure
    | v => Resolve.ofOption v
  | .sequence _ tag items =>
    match depth with
    | 0 => failure
    | depth + 1 =>
      if isLocalTag tag then failure
      else return .list (← items.mapM (anyValue anchored depth))
  | .mapping _ tag fields =>
    match depth with
    | 0 => failure
    | depth + 1 =>
      if isLocalTag tag then failure
      else
        let fields ← fields.mapM fun f ↦ do
          let k ← anyValue anchored depth f.1
          let v ← anyValue anchored depth f.2
          return k.text?.map fun name ↦ (Key.plain name, v)
        return .record (fields.filterMap id)
  | .alias _ => failure

def ofScalar {α : Type} (text? : Option String) (read : String → Option α) (value : α → Value) :
    Resolve Value :=
  Resolve.ofOption ((text?.bind read).map value)

def textKey (anchored : List (Nat × Node)) (node : Node) : Resolve String := do
  Resolve.ofOption (scalarText? (← follow anchored node))

def countKey (anchored : List (Nat × Node)) (node : Node) : Resolve String := do
  let node ← follow anchored node
  let n ← Resolve.ofOption ((literal? "int" node).bind Scalar.count?)
  return String.ofList (Decimal.digits n)

/-- The name that a key stands for where any value may stand: a text, or the name that a number
counts, if there is one. -/
def anyKey (anchored : List (Nat × Node)) (names : List String) (node : Node) :
    Resolve (Option String) := do
  match ← follow anchored node with
  | .scalar _ tag style text =>
    match scalarValue? tag style text, Scalar.count? text with
    | some (.text s), _ => return some s
    | some (.number (.int _)), some n => return names[n]?
    | _, _ => failure
  | _ => failure

/-- The record of what `field` keeps of the keys and values of a mapping. -/
def readFields (fields : List (Node × Node))
    (field : Node → Node → Resolve (Option (String × Value))) : Resolve Value := do
  let kept ← fields.mapM fun f ↦ field f.1 f.2
  return .record (kept.filterMap fun f ↦ f.map fun (name, v) ↦ (.plain name, v))

/-- The value of a node that is read as something of the given shape; its collections lie at most
`depth` deep in one another.  Where nothing is written, a collection is empty. -/
def readShape (anchored : List (Nat × Node)) (depth : Nat) (shape : Shape) (node : Node) :
    Resolve Value := do
  let node ← follow anchored node
  let (mayBeAbsent, shape) := shape.unwrap
  if mayBeAbsent && isAbsentNode node then return .null
  match shape, node with
  | .flag, _ => ofScalar (literal? "bool" node) Scalar.bool? .bool
  | .count, _ => ofScalar (literal? "int" node) Scalar.count? fun n ↦ .int n
  | .amount, _ => ofScalar (literal? "float" node) Scalar.float? fun x ↦ .number (.float x)
  | .text, _ => ofScalar (scalarText? node) some .text
  | .list item, .sequence _ _ items =>
    match depth with
    | 0 => failure
    | depth + 1 => return .list (← items.mapM (readShape anchored depth item))
  | .map entry, .mapping _ _ fields =>
    match depth with
    | 0 => failure
    | depth + 1 => readFields fields fun k v ↦ do
      return some (← textKey anchored k, ← readShape anchored depth entry v)
  | .countMap entry, .mapping _ _ fields =>
    match depth with
    | 0 => failure
    | depth + 1 => readFields fields fun k v ↦ do
      return some (← countKey anchored k, ← readShape anchored depth entry v)
  | .record known mixed, .mapping _ _ fields =>
    match depth with
    | 0 => failure
    | depth + 1 => readFields fields fun k v ↦ do
      let name ← textKey anchored k
      match known.lookup name with
      | some shape => return some (name, ← readShape anchored depth shape v)
      | none => if mixed then return some (name, ← anyValue anchored depth v) else return none
  | .untyped names, .mapping _ tag fields =>
    match depth with
    | 0 => failure
    | depth + 1 =>
      if isLocalTag tag then failure
      else readFields fields fun k v ↦ do
        let name ← anyKey anchored names k
        let v ← anyValue anchored depth v
        return name.map (·, v)
  | .untyped _, _ => anyValue anchored depth node
  | .list _, _ => if isBlankNode node then return .list [] else failure
  | .map _, _ | .countMap _, _ | .record .., _ =>
    if isBlankNode node then return .record [] else failure
  | .optional _, _ => failure

/-- The value of a YAML text with one document that is read as something of the given shape. -/
def read? (shape : Shape) (s : String) : Option Value := do
  let tokens ← tokens? s
  let root ← Node.ofTokens? tokens
  let (v, _) ← (readShape (root.anchored []) maxDepth shape root).run (100 * root.size)
  return v

end OracleMarkets.Yaml
