/-!
# Arguments

The arguments of the command line are read as a `Request`.  Options of the program itself may stand
before or after the name of the command, options of a command only after it.  What stands after
`--` is no option.
-/

namespace OracleMarkets.CommandLine

/-- How an answer is printed. -/
inductive Format where
  | table
  | json
deriving DecidableEq, Repr

/-- The options of the program itself. -/
structure Options where
  format : Format
  pretty : Bool
  /-- Whether a warning is a failure. -/
  strict : Bool
deriving DecidableEq, Repr

/-- What is asked for. -/
inductive Command where
  | generate (config : String) (snapshot out removalsOut : Option String)
  | ingest (rows : String)
  | validate (marketMap : String)
  | diff (current generated : String) (overwriteEnabled : Bool)
  | config (file : Option String)
deriving DecidableEq, Repr

/-- What arguments ask for. -/
inductive Request where
  | run (options : Options) (command : Command)
  | help
  | version
deriving DecidableEq, Repr

def Command.name : Command → String
  | .generate .. => "generate"
  | .ingest .. => "ingest"
  | .validate .. => "validate"
  | .diff .. => "diff"
  | .config .. => "config"

def commandNames : List String := ["generate", "ingest", "validate", "diff", "config"]

/-! ## Scanning -/

/-- Which options may stand at a place. -/
structure Level where
  valued : List String
  flags : List String
  places : Nat
  /-- Whether an argument that is no option ends the scan. -/
  endsAtName : Bool

/-- What a scan has found. -/
structure Scan where
  values : List (String × String)
  flags : List String
  positionals : List String

/-- Why a scan ends early. -/
inductive Stop where
  | usage
  | help
  | version
deriving DecidableEq, Repr

def Scan.empty : Scan := ⟨[], [], []⟩

def isOption (arg : String) : Bool := arg.startsWith "-" && arg != "-"

/-- Whether an argument begins with the option of one letter `letter`, which counts whatever follows
it. -/
def beginsWith (letter : Char) (arg : String) : Bool :=
  match arg.toList with
  | '-' :: c :: _ => c == letter
  | _ => false

def splitValue (arg : String) : String × Option String :=
  let name := arg.toList.takeWhile (· ≠ '=')
  match arg.toList.drop name.length with
  | [] => (arg, none)
  | _ :: value => (String.ofList name, some (String.ofList value))

def Scan.addValue (s : Scan) (name value : String) : Except Stop Scan :=
  if s.values.any (·.1 == name) || value == "" then .error .usage
  else if name == "--format" && !(["table", "json"].contains value) then .error .usage
  else .ok { s with values := s.values ++ [(name, value)] }

def Scan.addFlag (s : Scan) (name : String) : Except Stop Scan :=
  if s.flags.contains name then .error .usage else .ok { s with flags := s.flags ++ [name] }

/-- Adds an argument that is no option, where at most `places` of them may stand. -/
def Scan.addPositional (s : Scan) (places : Nat) (arg : String) : Except Stop Scan :=
  if arg == "" || places ≤ s.positionals.length then .error .usage
  else .ok { s with positionals := s.positionals ++ [arg] }

/-- Scans arguments up to the end, or up to the first name.  The arguments that are left begin with
that name. -/
def Level.scan (l : Level) : List String → Scan → Except Stop (Scan × List String)
  | [], s => .ok (s, [])
  | arg :: rest, s =>
    if !isOption arg then
      if l.endsAtName then .ok (s, arg :: rest)
      else do
        let s ← s.addPositional l.places arg
        l.scan rest s
    else if arg == "--help" || beginsWith 'h' arg then .error .help
    else if l.endsAtName && (arg == "--version" || beginsWith 'V' arg) then .error .version
    else
      let (name, value) := splitValue arg
      if l.valued.contains name then
        match value, rest with
        | some value, rest => do
          let s ← s.addValue name value
          l.scan rest s
        | none, [] => .error .usage
        | none, value :: rest =>
          if isOption value then .error .usage
          else do
            let s ← s.addValue name value
            l.scan rest s
      else if l.flags.contains arg then do
        let s ← s.addFlag arg
        l.scan rest s
      else .error .usage

/-! ## Requests -/

def globalValued : List String := ["--format"]

def globalFlags : List String := ["--pretty", "--strict"]

def topLevel : Level := ⟨globalValued, globalFlags, 0, true⟩

/-- What may stand after the name of a command, besides the options of the program itself. -/
def commandLevel (valued flags : List String) (places : Nat) : Level :=
  ⟨valued ++ globalValued, flags ++ globalFlags, places, false⟩

def levelOf? (name : String) : Option Level :=
  match name with
  | "generate" => some (commandLevel ["--config", "--snapshot", "--out", "--removals-out"] [] 0)
  | "ingest" => some (commandLevel [] [] 1)
  | "validate" => some (commandLevel [] [] 1)
  | "diff" => some (commandLevel ["--current", "--generated"] ["--overwrite-enabled"] 0)
  | "config" => some (commandLevel ["--config"] [] 0)
  | _ => none

def Scan.value? (s : Scan) (name : String) : Option String :=
  (s.values.find? (·.1 == name)).map (·.2)

def commandOf? (name : String) (s : Scan) : Option Command :=
  match name, s.positionals with
  | "generate", [] => do
    let config ← s.value? "--config"
    return .generate config (s.value? "--snapshot") (s.value? "--out") (s.value? "--removals-out")
  | "ingest", [rows] => some (.ingest rows)
  | "validate", [marketMap] => some (.validate marketMap)
  | "diff", [] => do
    let current ← s.value? "--current"
    let generated ← s.value? "--generated"
    return .diff current generated (s.flags.contains "--overwrite-enabled")
  | "config", [] => some (.config (s.value? "--config"))
  | _, _ => none

/-- The options of the program itself, of which a value after the command counts more than one
before it. -/
def optionsOf (before after : Scan) : Options where
  format :=
    if (after.value? "--format" <|> before.value? "--format") = some "table" then .table else .json
  pretty := (before.flags ++ after.flags).contains "--pretty"
  strict := (before.flags ++ after.flags).contains "--strict"

def parse (args : List String) : Except Stop Request := do
  let leading := args.takeWhile (· ≠ "--")
  let trailing := args.drop leading.length
  let (before, rest) ← topLevel.scan leading .empty
  match rest with
  | [] => throw .usage
  | "help" :: names =>
    match names ++ trailing with
    | [] => throw .help
    | [name] => throw (if ("help" :: commandNames).contains name then .help else .usage)
    | _ => throw .usage
  | name :: rest =>
    match levelOf? name with
    | none => throw .usage
    | some level =>
      let (after, _) ← level.scan rest .empty
      let after ← (trailing.drop 1).foldlM (fun s arg ↦ s.addPositional level.places arg) after
      match commandOf? name after with
      | none => throw .usage
      | some command => return .run (optionsOf before after) command

def Request.ofArguments? (args : List String) : Option Request :=
  match parse args with
  | .ok request => some request
  | .error .help => some .help
  | .error .version => some .version
  | .error .usage => none

end OracleMarkets.CommandLine
