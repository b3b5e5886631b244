import OracleMarkets.Config.File
import OracleMarkets.Database
import OracleMarkets.Stage.Basic

/-!
# Failures of commands

Why a command does not answer, and the exit code by which a caller tells the causes apart.
-/

namespace OracleMarkets.CommandLine

/-- Why a command fails.  What a database refuses is told apart from the causes that lie in rows and
in files; a strict run fails for its warnings. -/
inductive Failure where
  | usage
  | validation (cause : ValidationError)
  | config (cause : ConfigError)
  | pipeline (cause : PipelineError)
  | store (cause : StoreError)
  | database (cause : DatabaseError)
  | strict (warnings errors : Nat)
  | unreadable (path : String) (cause : FileError)
  | undecodable
  | unwritable (cause : FileError)
deriving DecidableEq, Repr

namespace Failure

/-- The exit code: 2 for what is refused, 3 for a pipeline that ends early, 4 for a store, 5 for
warnings, 10 for files. -/
def exitCode : Failure → Nat
  | .usage | .validation _ | .config _ | .pipeline (.validation _) => 2
  | .pipeline _ => 3
  | .store _ | .database _ => 4
  | .strict .. => 5
  | .unreadable .. | .undecodable | .unwritable _ => 10

def message : Failure → String
  | .usage => "the arguments make no sense; see --help"
  | .validation cause => cause.message
  | .config cause => cause.message
  | .pipeline cause => cause.message
  | .store cause => cause.message
  | .database cause => cause.message
  | .strict warnings errors => s!"strict mode failed: warnings={warnings}, errors={errors}"
  | .unreadable path cause => s!"failed to read {path}: {cause.message}"
  | .undecodable => "a file does not hold what is asked for"
  | .unwritable cause => cause.message

end Failure

end OracleMarkets.CommandLine
