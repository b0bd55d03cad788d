import FlexLink.Journal.Directory
import FlexLink.Settings.Load
import FlexLink.SystemError

/-! # Files of a host

A tree of files with a working directory, and the places that paths lead to in it.  A path is
followed part by part: each part but the last must be a directory, two dots lead back, and empty
parts and single dots stay where they are but only in a directory. -/
set_option autoImplicit false
namespace FlexLink

structure FileSystem where
  /-- What stands at each place but the root.  A place is given by names, the innermost first. -/
  nodes : Table (List String) FileNode := {}
  workingDirectory : List String := []

namespace FileSystem

def node? (fs : FileSystem) (place : List String) : Option FileNode :=
  if place.isEmpty then some .folder else fs.nodes.get? place

def start (fs : FileSystem) (path : String) : List String :=
  if path.startsWith "/" then [] else fs.workingDirectory

/-- The parts of a path, empty ones included. -/
def parts (path : String) : List String := path.splitOn "/"

def maxPathSize : Nat := 4096

/-- The place that the parts of a path lead to, whether or not something stands there. -/
def follow (fs : FileSystem) (place : List String) : List String → Except SystemError (List String)
  | [] => .ok place
  | part :: rest =>
    match fs.node? place with
    | none => .error .notFound
    | some (.text _) => .error .notDirectory
    | some .folder =>
      if part = "" || part = "." then fs.follow place rest
      else if part = ".." then fs.follow place.tail rest
      else if !JournalDirectory.fits part then .error .nameTooLong
      else fs.follow (part :: place) rest

def accept (path : String) : Except SystemError Unit :=
  if path.toList.contains '\x00' then .error .nulInPath
  else if path.isEmpty then .error .notFound
  else if maxPathSize ≤ path.utf8ByteSize then .error .nameTooLong
  else .ok ()

def locate (fs : FileSystem) (path : String) : Except SystemError (List String × FileNode) := do
  accept path
  let place ← fs.follow (fs.start path) (parts path)
  match fs.node? place with
  | some node => return (place, node)
  | none => throw .notFound

/-! ## Making directories -/

/-- Makes one directory; slashes behind its name do not count. -/
def makeFolder (fs : FileSystem) (start path : List String) : Except SystemError FileSystem :=
  match path.reverse.dropWhile (· = "") with
  | [] => .error .alreadyExists
  | name :: above => do
    let place ← fs.follow start above.reverse
    match fs.node? place with
    | none => throw .notFound
    | some (.text _) => throw .notDirectory
    | some .folder =>
      if name = "." || name = ".." then throw .alreadyExists
      else if !JournalDirectory.fits name then throw .nameTooLong
      else if (fs.node? (name :: place)).isSome then throw .alreadyExists
      else return { fs with nodes := fs.nodes.insert (name :: place) .folder }

def isFolder (fs : FileSystem) (start path : List String) : Bool :=
  match fs.follow start path with
  | .ok place => fs.node? place == some .folder
  | .error _ => false

def ensureFolder (fs : FileSystem) (start path : List String) : Except SystemError FileSystem :=
  match fs.makeFolder start path with
  | .error .alreadyExists =>
    if fs.isFolder start path then .ok fs else .error .alreadyExists
  | outcome => outcome

/-- Makes the directory of a path whose names are given, the innermost first, and those above it
as far as they are missing. -/
def ensureFolders (fs : FileSystem) (start : List String) : List String → Except SystemError FileSystem
  | [] => .ok fs
  | name :: above =>
    match fs.ensureFolder start (name :: above).reverse with
    | .error .notFound => do
      (← fs.ensureFolders start above).ensureFolder start (name :: above).reverse
    | outcome => outcome

def ensurePath (fs : FileSystem) (path : String) : Except SystemError FileSystem := do
  accept path
  let start := fs.start path
  match fs.ensureFolder start (parts path) with
  | .error .notFound => do
    let names := (parts path).filter fun part => part ≠ "" ∧ part ≠ "."
    (← fs.ensureFolders start names.reverse.tail).ensureFolder start (parts path)
  | outcome => outcome

/-! ## Writing a file -/

/-- The path of the directory that a path stands in; empty parts and single dots at the end of a
path do not count.  It is empty where that directory is there without being made. -/
def above (path : String) : String :=
  "/".intercalate (((parts path).reverse.dropWhile fun part => part = "" ∨ part = ".").tail.reverse)

/-- Writes a file, and makes the directory that it is to stand in if need be. -/
def write (fs : FileSystem) (path content : String) : Except SystemError FileSystem := do
  accept path
  let folder := above path
  let fs ← if folder.isEmpty then .ok fs else fs.ensurePath folder
  match (parts path).reverse with
  | [] => throw .notFound
  | name :: rest =>
    let place ← fs.follow (fs.start path) rest.reverse
    match fs.node? place with
    | none => throw .notFound
    | some (.text _) => throw .notDirectory
    | some .folder =>
      if name = "" || name = "." || name = ".." then throw .isDirectory
      else if !JournalDirectory.fits name then throw .nameTooLong
      else if fs.node? (name :: place) = some .folder then throw .isDirectory
      else return { fs with nodes := fs.nodes.insert (name :: place) (.text content) }

def members (fs : FileSystem) (place : List String) : List (String × FileNode) :=
  fs.nodes.entries.filterMap fun entry =>
    match entry with
    | (name :: above, node) => if above = place then some (name, node) else none
    | ([], _) => none

/-! ## What is read -/

def fileAt (fs : FileSystem) (path : String) : FileState :=
  match fs.locate path with
  | .ok (_, .text content) => .content (Utf8.encode content)
  | .ok (_, .folder) => .directory
  | .error _ => .missing

/-- Opens the journal at a path, whose directory is made if need be.  The empty path names no
directory. -/
def journalAt (fs : FileSystem) (path : String) : Except SystemError JournalDirectory :=
  if path.isEmpty then .ok { path, process := 0, files := none }
  else do
    let fs ← fs.ensurePath path
    let (place, _) ← fs.locate path
    return .seed { path, process := 0 } (fs.members place)

end FileSystem
end FlexLink
