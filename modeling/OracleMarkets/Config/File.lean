import OracleMarkets.Config.Document
import OracleMarkets.Config.Validate
import OracleMarkets.FileError
import OracleMarkets.Json.Reader
import OracleMarkets.Path
import OracleMarkets.Yaml.Reader

/-!
# Configuration files

A configuration file is a YAML text if the extension of its name says so, and a JSON text otherwise.
A configuration that is loaded is also checked.
-/

namespace OracleMarkets

/-- Why a configuration is not loaded from a file. -/
inductive ConfigError where
  | unreadable (path : String) (cause : FileError)
  | json
  | yaml
  | validation (cause : ValidationError)
deriving DecidableEq, Repr

def ConfigError.message : ConfigError → String
  | .unreadable path cause => s!"failed to read config {path}: {cause.message}"
  | .json => "invalid JSON config"
  | .yaml => "invalid YAML config"
  | .validation cause => cause.message

namespace Config

def isYamlName (path : String) : Bool :=
  let e := (Path.extension (Path.lastName path).toList).map Char.toLower
  e == "yaml".toList || e == "yml".toList

/-- The configuration of a text, as a file of the given name holds it. -/
def ofText (path text : String) : Except ConfigError Config :=
  if isYamlName path then
    match (Yaml.read? shape text).bind decode? with
    | some c => .ok c
    | none => .error .yaml
  else
    match (Json.read? text).bind decode? with
    | some c => .ok c
    | none => .error .json

/-- The configuration of a file, given what reading the file gives. -/
def ofFile (path : String) (content : Except FileError String) : Except ConfigError Config := do
  let text ← content.mapError (.unreadable path)
  let c ← ofText path text
  c.validate.mapError .validation
  return c

end Config

end OracleMarkets
