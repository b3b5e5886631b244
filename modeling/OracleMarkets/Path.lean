import OracleMarkets.Text.Split

/-!
# Paths

A path is a text of names with slashes between them.  Empty names and the name `.` lead nowhere.
-/

namespace OracleMarkets.Path

def maxNameSize : Nat := 255

def maxSize : Nat := 4095

/-- Whether a path leads from the root and not from the working directory. -/
def isAbsolute (path : String) : Bool := path.startsWith "/"

def names (path : String) : List String := (Text.split '/' path.toList).map String.ofList

def isIdle (name : String) : Bool := name == "" || name == "."

def steps (path : String) : List String := (names path).filter fun name ↦ !isIdle name

def ofSteps (isAbsolute : Bool) (steps : List String) : String :=
  (if isAbsolute then "/" else "") ++ "/".intercalate steps

def lastName (path : String) : String := (steps path).getLastD ""

/-- The extension of a name: what follows its last dot, if the name does not begin with that
dot. -/
def extension (name : List Char) : List Char :=
  let after := (name.reverse.takeWhile (· ≠ '.')).reverse
  if after.length + 1 < name.length then after else []

def parent (path : String) : List String := (steps path).dropLast

def join (directory name : String) : String :=
  if directory = "" ∨ directory.endsWith "/" then directory ++ name else directory ++ "/" ++ name

end OracleMarkets.Path
