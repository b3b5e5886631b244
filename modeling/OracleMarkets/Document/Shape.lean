/-!
# Shapes

A shape says what a part of a document is read as.  In YAML the kind of a scalar without quotes
hangs on what is asked for (`10` is a number where a number is wanted and a text where a text is
wanted), so a document is read against the shape of what is wanted from it.
-/

namespace OracleMarkets

/-- What a part of a document is read as. -/
inductive Shape where
  | flag
  | count
  | amount
  | text
  | optional (s : Shape)
  | list (item : Shape)
  | map (entry : Shape)
  /-- Parts of one shape by natural numbers of 64 bits. -/
  | countMap (entry : Shape)
  /-- A structure with the given fields.  Other fields are passed over, unless it is `mixed`: then
  they are read as any values, since a part of the structure is made of them. -/
  | record (fields : List (String × Shape)) (mixed : Bool)
  /-- Any value.  Where a record has a natural number for a name, the number counts the given
  names. -/
  | untyped (names : List String)

/-- The shape under the marks that say it may stand for nothing, and whether there is such a
mark. -/
def Shape.unwrap : Shape → Bool × Shape
  | .optional s => (true, s.unwrap.2)
  | s => (false, s)

end OracleMarkets
