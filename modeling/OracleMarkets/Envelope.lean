import OracleMarkets.Document.Decode
import OracleMarkets.Text.Blank
import OracleMarkets.Text.Split
import OracleMarkets.Timestamp

/-!
# Envelopes

What a command answers is put into an envelope: the data, who asked for it and when, warnings, and
the errors that did not keep the command from answering.
-/

namespace OracleMarkets

/-- What is told about an answer. -/
structure EnvelopeHeader where
  requestId : String
  schemaVersion : String
  generatedAt : Timestamp
  command : String
  /-- How long the answer took, in milliseconds. -/
  latencyMs : UInt64
  warnings : List String
deriving DecidableEq

/-- An error of an answer. -/
structure EnvelopeError where
  code : String
  message : String
  ticker : Option String
deriving DecidableEq, Repr

/-- An answer. -/
structure Envelope where
  header : EnvelopeHeader
  data : Value
  errors : List EnvelopeError

namespace EnvelopeHeader

def currentVersion : String := "v1.0.0"

/-- A version is the letter `v` and three decimal numbers with dots between them. -/
def isVersion : List Char → Bool
  | 'v' :: s =>
    let parts := Text.split '.' s
    parts.length == 3 && parts.all fun part ↦ !part.isEmpty && part.all Char.isDigit
  | _ => false

/-- A request id has at least eight bytes of UTF-8 once it is trimmed. -/
def isRequestId (s : String) : Bool := 8 ≤ (Text.trim s).utf8ByteSize

/-- Refuses a request id that is too short, and a version without the form of one. -/
def validate (m : EnvelopeHeader) : Except ValidationError Unit :=
  if !isRequestId m.requestId then .error .invalidRequestId
  else if !isVersion m.schemaVersion.toList then .error (.invalidSchemaVersion m.schemaVersion)
  else .ok ()

def ofRequest (requestId command : String) (generatedAt : Timestamp) (latencyMs : UInt64) :
    EnvelopeHeader :=
  ⟨requestId, currentVersion, generatedAt, command, latencyMs, []⟩

/-- A header of the current version, without warnings, if it is valid. -/
def make (requestId command : String) (generatedAt : Timestamp) (latencyMs : UInt64) :
    Except ValidationError EnvelopeHeader := do
  let m := ofRequest requestId command generatedAt latencyMs
  m.validate
  return m

def pushWarning (m : EnvelopeHeader) (warning : String) : EnvelopeHeader :=
  { m with warnings := m.warnings ++ [warning] }

def fieldNames : List String :=
  ["request_id", "schema_version", "generated_at", "command", "latency_ms", "warnings"]

/-- The header as an object; warnings are left out if there are none. -/
def encode (m : EnvelopeHeader) : Value :=
  .object ([("request_id", .text m.requestId), ("schema_version", .text m.schemaVersion),
    ("generated_at", m.generatedAt.encode), ("command", .text m.command),
    ("latency_ms", .count m.latencyMs)] ++
      if m.warnings.isEmpty then [] else [("warnings", .list (m.warnings.map .text))])

def decode? (v : Value) : Option EnvelopeHeader := do
  let fs ← v.fields? fieldNames
  let requestId ← fs.required "request_id" Value.text?
  let schemaVersion ← fs.required "schema_version" Value.text?
  let generatedAt ← fs.required "generated_at" Timestamp.decode?
  let command ← fs.required "command" Value.text?
  let latencyMs ← fs.required "latency_ms" Value.count?
  let warnings ← fs.withDefault "warnings" [] (Value.list? Value.text?)
  return ⟨requestId, schemaVersion, generatedAt, command, latencyMs, warnings⟩

end EnvelopeHeader

namespace EnvelopeError

def validate (e : EnvelopeError) : Except ValidationError Unit :=
  if Text.isBlankText e.code then .error .emptyErrorCode
  else if Text.isBlankText e.message then .error .emptyErrorMessage
  else .ok ()

def make (code message : String) : Except ValidationError EnvelopeError := do
  let e : EnvelopeError := ⟨code, message, none⟩
  e.validate
  return e

/-- The error as an object; the ticker is left out if there is none. -/
def encode (e : EnvelopeError) : Value :=
  .object ([("code", .text e.code), ("message", .text e.message)] ++
    (e.ticker.map fun ticker ↦ ("ticker", .text ticker)).toList)

def decode? (v : Value) : Option EnvelopeError := do
  let fs ← v.fields? ["code", "message", "ticker"]
  let code ← fs.required "code" Value.text?
  let message ← fs.required "message" Value.text?
  let ticker ← fs.withDefault "ticker" none (Value.option? Value.text?)
  return ⟨code, message, ticker⟩

end EnvelopeError

namespace Envelope

def pushError (e : Envelope) (error : EnvelopeError) : Except ValidationError Envelope := do
  error.validate
  return { e with errors := e.errors ++ [error] }

/-- The envelope as an object; errors are left out if there are none. -/
def encode (e : Envelope) : Value :=
  .object ([("meta", e.header.encode), ("data", e.data)] ++
    if e.errors.isEmpty then [] else [("errors", .list (e.errors.map EnvelopeError.encode))])

/-- Reads an envelope.  Its data may be any value, and are kept with the names of their fields in
order. -/
def decode? (v : Value) : Option Envelope := do
  let fs ← v.fields? ["meta", "data", "errors"]
  let header ← fs.required "meta" EnvelopeHeader.decode?
  let data ← fs.required "data" fun v ↦ some v.sortKeys
  let errors ← fs.withDefault "errors" [] (Value.list? EnvelopeError.decode?)
  return ⟨header, data, errors⟩

end Envelope

end OracleMarkets
