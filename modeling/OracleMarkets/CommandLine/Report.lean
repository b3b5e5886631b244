import OracleMarkets.CommandLine.Arguments
import OracleMarkets.Envelope
import OracleMarkets.Json.Printer

/-!
# Reports

How the envelope of an answer is printed.
-/

namespace OracleMarkets.CommandLine

def indentLines (text : String) : List String :=
  (Text.split '\n' text.toList).map fun line ↦ "  " ++ String.ofList line

def tableLines (e : Envelope) : List String :=
  [s!"request_id  : {e.header.requestId}",
    s!"command     : {e.header.command}",
    s!"schema      : {e.header.schemaVersion}",
    s!"generated_at: {e.header.generatedAt.text}",
    s!"latency_ms  : {e.header.latencyMs}"] ++
  (if e.header.warnings.isEmpty then []
    else "warnings:" :: e.header.warnings.map fun warning ↦ s!"  - {warning}") ++
  ("data:" :: indentLines (Json.pretty e.data)) ++
  (if e.errors.isEmpty then []
    else "errors:" :: e.errors.map fun error ↦ s!"  - {error.code}: {error.message}")

def report (o : Options) (e : Envelope) : String :=
  match o.format with
  | .json => (if o.pretty then Json.pretty e.encode else Json.compact e.encode) ++ "\n"
  | .table => String.join ((tableLines e).map (· ++ "\n"))

end OracleMarkets.CommandLine
