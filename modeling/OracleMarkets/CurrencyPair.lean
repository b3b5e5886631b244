import OracleMarkets.Document.Decode
import OracleMarkets.Document.Shape
import OracleMarkets.Text.Blank
import OracleMarkets.ValidationError

/-!
# Currency pairs

A pair `BASE/QUOTE` names a price: how much of the quote one unit of the base costs.  Its text is
the ticker of a market.  A pair is valid if its symbols are not empty, differ, and hold neither a
slash nor a blank; on valid pairs the text determines the pair.
-/

namespace OracleMarkets

/-- Two symbols, of which the first is priced in the second. -/
structure CurrencyPair where
  base : String
  quote : String
deriving DecidableEq, Repr

namespace CurrencyPair

def text (p : CurrencyPair) : String := p.base ++ "/" ++ p.quote

/-- The pair of two symbols, each trimmed and in upper case. -/
def ofSymbols (base quote : String) : CurrencyPair where
  base := Text.upper (Text.trim base)
  quote := Text.upper (Text.trim quote)

/-- The pair seen from the other side. -/
def inverted (p : CurrencyPair) : CurrencyPair := ⟨p.quote, p.base⟩

/-! ## Order -/

/-- Pairs are ordered by base, and pairs of one base by quote. -/
instance : Ord CurrencyPair := ⟨compareLex (compareOn base) (compareOn quote)⟩

instance : Std.TransOrd CurrencyPair :=
  inferInstanceAs (Std.TransCmp (compareLex (compareOn base) (compareOn quote)))

theorem compare_eq (p q : CurrencyPair) :
    compare p q = (compare p.base q.base).then (compare p.quote q.quote) := rfl

instance : Std.LawfulEqOrd CurrencyPair where
  compare_self {p} := by
    simp
  eq_of_compare {p q} h := by
    rw [compare_eq, Ordering.then_eq_eq] at h
    cases p
    cases q
    simp_all

/-! ## Validity -/

def ValidSymbol (s : String) : Prop :=
  s.toList ≠ [] ∧ '/' ∉ s.toList ∧ ∀ c ∈ s.toList, Text.isBlank c = false

def Valid (p : CurrencyPair) : Prop :=
  ValidSymbol p.base ∧ ValidSymbol p.quote ∧ p.base ≠ p.quote

def isSymbol (s : String) : Bool :=
  !s.toList.isEmpty && s.toList.all fun c ↦ c != '/' && !Text.isBlank c

def isValid (p : CurrencyPair) : Bool := isSymbol p.base && isSymbol p.quote && p.base != p.quote

theorem isSymbol_iff {s : String} : isSymbol s = true ↔ ValidSymbol s := by
  simp only [isSymbol, ValidSymbol, Bool.and_eq_true, Bool.not_eq_true', List.isEmpty_eq_false_iff,
    List.all_eq_true, bne_iff_ne]
  refine and_congr_right fun _ ↦ ⟨fun h ↦ ⟨fun hc ↦ (h _ hc).1 rfl, fun c hc ↦ (h c hc).2⟩, ?_⟩
  rintro ⟨hs, hb⟩ c hc
  exact ⟨fun h ↦ hs (h ▸ hc), hb c hc⟩

theorem isValid_iff {p : CurrencyPair} : p.isValid = true ↔ p.Valid := by
  simp only [isValid, Valid, Bool.and_eq_true, isSymbol_iff, bne_iff_ne, and_assoc]

def validate (p : CurrencyPair) : Except ValidationError Unit :=
  if p.isValid then .ok () else .error (.invalidCurrencyPair p.text)

theorem validate_eq_ok_iff {p : CurrencyPair} : p.validate = .ok () ↔ p.Valid := by
  simp [validate, ← isValid_iff]

/-! ## Reading tickers -/

/-- What stands before and after the first slash. -/
def splitSlash? : List Char → Option (List Char × List Char)
  | [] => none
  | c :: s => if c = '/' then some ([], s) else (splitSlash? s).map fun r ↦ (c :: r.1, r.2)

def ofText? (s : String) : Option CurrencyPair := do
  let (base, quote) ← splitSlash? (Text.trimChars s.toList)
  let p := ofSymbols (String.ofList base) (String.ofList quote)
  if p.isValid then some p else none

/-- Reads a ticker.  The error quotes the text as it is, untrimmed. -/
def parse (s : String) : Except ValidationError CurrencyPair :=
  match ofText? s with
  | some p => .ok p
  | none => .error (.invalidCurrencyPair s)

/-! ## Documents -/

def members (p : CurrencyPair) : List (String × Value) :=
  [("base", .text p.base), ("quote", .text p.quote)]

def encode (p : CurrencyPair) : Value := .object p.members

/-- The pair of the fields `base` and `quote` among others.  Which form a pair has is known only
when all of it is read, so the other fields have to be readable, too. -/
def ofEntries? (entries : List (Key × Value)) : Option CurrencyPair := do
  let fs ← Fields.ofEntries? ["base", "quote"] entries
  let base ← fs.required "base" Value.text?
  let quote ← fs.required "quote" Value.text?
  let p := ofSymbols base quote
  if p.isValid && Value.areFieldsReadable entries then some p else none

/-- What a pair is read from: its text, or a record of its symbols. -/
def shape : Shape := .untyped ["base", "quote"]

def decode? : Value → Option CurrencyPair
  | .record entries => ofEntries? entries
  | v => v.text?.bind ofText?

end CurrencyPair

end OracleMarkets
