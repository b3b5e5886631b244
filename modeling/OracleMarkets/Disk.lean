import OracleMarkets.Path
import OracleMarkets.RowStore

/-!
# Disks

A disk is a tree of files as a value, so that what commands leave for each other can be followed.
Files and directories are told apart by the names that lead to them from the root.  A change that
fails may have made directories on the way.
-/

namespace OracleMarkets

/-- What a file holds.  The bytes of a database are no text. -/
inductive Content where
  | text (s : String)
  | database (rows : Warehouse)

/-- A tree of files.  The root is not among its directories. -/
structure Disk where
  files : SortedMap (List String) Content
  directories : SortedSet (List String)

namespace Disk

def workingDirectory : List String := ["work"]

def empty : Disk := ⟨∅, SortedSet.ofList [workingDirectory]⟩

def isDirectory (d : Disk) (place : List String) : Bool :=
  place.isEmpty || d.directories.contains place

def start (path : String) : List String := if Path.isAbsolute path then [] else workingDirectory

/-! ## Finding files -/

/-- Where names lead to from a place; the last of them need not exist. -/
def walk (d : Disk) (place : List String) : List String → Except FileError (List String)
  | [] => .ok place
  | name :: rest =>
    if d.files.contains place then .error .notDirectory
    else if !d.isDirectory place then .error .notFound
    else if Path.isIdle name then walk d place rest
    else if name = ".." then walk d place.dropLast rest
    else if Path.maxNameSize < name.utf8ByteSize then .error .nameTooLong
    else walk d (place ++ [name]) rest

def enter (d : Disk) (place names : List String) : Except FileError (List String) :=
  d.walk place (names ++ ["."])

def read (d : Disk) (path : String) : Except FileError String :=
  if path = "" then .error .notFound
  else if Path.maxSize < path.utf8ByteSize then .error .nameTooLong
  else do
    let place ← d.walk (start path) (Path.names path)
    match d.files.get? place with
    | some (.text s) => return s
    | some (.database _) => throw .notText
    | none => throw (if d.isDirectory place then .isDirectory else .notFound)

def rowsAt (d : Disk) (place : List String) : Warehouse :=
  match d.files.get? place with
  | some (.database rows) => rows
  | _ => .empty

/-! ## Changes -/

def makeDirectory (d : Disk) (place names : List String) : Except FileError Disk :=
  match names.getLast? with
  | none => .error .alreadyExists
  | some name => do
    let place ← d.enter place names.dropLast
    if name = ".." then throw .alreadyExists
    let place ← d.walk place [name]
    if d.files.contains place || d.isDirectory place then throw .alreadyExists
    return { d with directories := d.directories.insert place () }

def leadsToDirectory (d : Disk) (place names : List String) : Bool :=
  match d.walk place names with
  | .ok place => d.isDirectory place
  | .error _ => false

def ensureDirectory (d : Disk) (place names : List String) : Disk × Option FileError :=
  match d.makeDirectory place names with
  | .ok d => (d, none)
  | .error e => (d, if d.leadsToDirectory place names then none else some e)

/-- Makes the directory that names lead to, which are given in reverse, and those on the way to it.
It is tried itself first; only if the way to it is missing, the way is made and it is tried once
more. -/
def makeDirectories (d : Disk) (place : List String) : List String → Disk × Option FileError
  | [] => (d, none)
  | name :: before =>
    let names := (name :: before).reverse
    match d.ensureDirectory place names with
    | (_, some .notFound) =>
      match d.makeDirectories place before with
      | (d, some e) => (d, some e)
      | (d, none) => d.ensureDirectory place names
    | result => result

/-- Where a file is written. -/
def target (d : Disk) (path : String) : Except FileError (List String) :=
  if Path.maxSize < path.utf8ByteSize then .error .nameTooLong
  else
    let names := (Path.names path).filter (· ≠ "")
    match names.getLast? with
    | none => .error (if path = "" then .notFound else .isDirectory)
    | some name => do
      let place ← d.enter (start path) names.dropLast
      if name = "." || name = ".." || path.endsWith "/" then throw .isDirectory
      let place ← d.walk place [name]
      if d.isDirectory place then throw .isDirectory
      return place

def makeParent (d : Disk) (path : String) : Disk × Option FileError :=
  if Path.maxSize < (Path.ofSteps (Path.isAbsolute path) (Path.parent path)).utf8ByteSize then
    (d, some .nameTooLong)
  else d.makeDirectories (start path) (Path.parent path).reverse

def store (d : Disk) (place : List String) (content : Content) : Disk :=
  { d with files := d.files.insert place content }

/-- Writes a text file, and makes its directory first. -/
def write (d : Disk) (path text : String) : Disk × Option FileError :=
  match d.makeParent path with
  | (d, some e) => (d, some e)
  | (d, none) =>
    match d.target path with
    | .error e => (d, some e)
    | .ok place => (d.store place (.text text), none)

/-- The disk with the given files, of which those that cannot be written are left out. -/
def ofFiles (files : List (String × String)) : Disk :=
  files.foldl (fun d f ↦ (d.write f.1 f.2).1) empty

end Disk

end OracleMarkets
