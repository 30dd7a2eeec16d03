import StackLang.Machine.Basic
import StackLang.Text.Basic

/-!
# Files

What a run needs of a file system, and a file system that is kept in memory.
-/
namespace StackLang

/-!
## Disks

What a run needs of a file system: to create files and to add bytes to them. A
disk may refuse either, for any reason of its own, and is then as it was.
-/

/-- File contents, input and output are rows of bytes. -/
abbrev Bytes := Array UInt8

class Disk (Files : Type) where
  /-- Makes the file at a path an empty one. -/
  create : String → Files → Except SystemError Files
  /-- Adds bytes at the end of the file at a path. -/
  append : String → Bytes → Files → Except SystemError Files

/-!
## A directory tree

A disk with directories, files and two devices, one that swallows all and one
that is always full. A path is walked name by name, from the root if it begins
with a slash and from the working directory otherwise. Every directory on the
way has to be there; `.` stays in it and `..` goes to the one above. There are
no links, no permissions and no limits but those on the length of names.
-/

inductive Entry where
  | directory
  | file (content : Bytes)
  | nullDevice
  | fullDevice
  deriving DecidableEq

namespace Entry

def isDirectory : Entry → Bool
  | .directory => true
  | _ => false

end Entry

/-- The names on the way from the root to an entry. -/
abbrev Location := List String

structure DirectoryTree where
  entries : List (Location × Entry)
  workingDirectory : Location
  deriving DecidableEq

namespace DirectoryTree

/-- An empty working directory, beside the devices. -/
def scratch : DirectoryTree where
  entries :=
    [(["dev"], .directory), (["dev", "null"], .nullDevice), (["dev", "full"], .fullDevice),
      (["tmp"], .directory), (["tmp", "work"], .directory)]
  workingDirectory := ["tmp", "work"]

def entry? (tree : DirectoryTree) (location : Location) : Option Entry :=
  if location.isEmpty then some .directory else tree.entries.lookup location

/-- Puts an entry at a location, in place of the one that is there. -/
def put (tree : DirectoryTree) (location : Location) (entry : Entry) : DirectoryTree :=
  { tree with
    entries := (location, entry) :: tree.entries.filter fun other => other.1 ≠ location }

/-- The location that a name in a directory leads to, whether an entry is there or not. -/
def child (directory : Location) (name : String) : Except SystemError Location :=
  if name = "." then .ok directory
  else if name = ".." then .ok directory.dropLast
  else if 255 < name.utf8ByteSize then .error .nameTooLong
  else .ok (directory ++ [name])

def requireDirectory (tree : DirectoryTree) (location : Location) :
    Except SystemError Unit :=
  match tree.entry? location with
  | none => .error .notFound
  | some .directory => .ok ()
  | some _ => .error .notADirectory

/-- Walks through directories, each of which has to be there. -/
def enter (tree : DirectoryTree) (location : Location) :
    List String → Except SystemError Location
  | [] => do
    tree.requireDirectory location
    return location
  | name :: rest => do
    tree.requireDirectory location
    tree.enter (← child location name) rest

/-- The names in a path; two slashes in a row stand for one. -/
def names (path : String) : List String :=
  (path.splitOn "/").filter (· ≠ "")

def origin (tree : DirectoryTree) (path : String) : Location :=
  if path.startsWith "/" then [] else tree.workingDirectory

/-- Paths that no system call takes. -/
def checkPath (path : String) : Except SystemError Unit :=
  if path.contains (Char.ofNat 0) then .error .nulInFileName
  else if path.isEmpty then .error .notFound
  else if 4096 ≤ path.utf8ByteSize then .error .nameTooLong
  else .ok ()

/-- The directory a path leads to before its last name, and that name. -/
def enterParent (tree : DirectoryTree) (path : String) :
    Except SystemError (Location × Option String) := do
  checkPath path
  let names := names path
  return (← tree.enter (tree.origin path) names.dropLast, names.getLast?)

/-- Where a file is that a path names, whether it is there already or not. -/
def fileLocation (tree : DirectoryTree) (path : String) : Except SystemError Location := do
  let (directory, name) ← tree.enterParent path
  match name with
  | none => throw .isADirectory
  | some name =>
    if path.endsWith "/" || name = "." || name = ".." then throw .isADirectory
    else
      let location ← child directory name
      match tree.entry? location with
      | some .directory => throw .isADirectory
      | _ => return location

/-- What is at the end of a path. -/
def find (tree : DirectoryTree) (path : String) : Except SystemError Entry := do
  let (directory, name) ← tree.enterParent path
  match name with
  | none => return .directory
  | some name =>
    let location ← child directory name
    match tree.entry? location with
    | none => throw .notFound
    | some entry =>
      if path.endsWith "/" && !entry.isDirectory then throw .notADirectory else return entry

/-- The bytes of the file at a path; a device holds none. -/
def read (tree : DirectoryTree) (path : String) : Except SystemError Bytes := do
  match ← tree.find path with
  | .directory => throw .isADirectory
  | .file content => return content
  | .nullDevice => return #[]
  | .fullDevice => return #[]

def create (path : String) (tree : DirectoryTree) : Except SystemError DirectoryTree := do
  let location ← tree.fileLocation path
  match tree.entry? location with
  | some .nullDevice | some .fullDevice => return tree
  | _ => return tree.put location (.file #[])

def append (path : String) (bytes : Bytes) (tree : DirectoryTree) :
    Except SystemError DirectoryTree := do
  let location ← tree.fileLocation path
  match tree.entry? location with
  | none => throw .notFound
  | some .directory => throw .isADirectory
  | some .nullDevice => return tree
  | some .fullDevice => if bytes.isEmpty then return tree else throw .noSpace
  | some (.file content) => return tree.put location (.file (content ++ bytes))

instance : Disk DirectoryTree where
  create := create
  append := append

/-- Makes the directories of a path that are not there yet. -/
def makeDirectories (tree : DirectoryTree) (location : Location) : List String → DirectoryTree
  | [] => tree
  | name :: rest =>
    let location := location ++ [name]
    let tree := if (tree.entry? location).isNone then tree.put location .directory else tree
    tree.makeDirectories location rest

/-- Puts an entry below the working directory, with the directories on the way. -/
def provide (tree : DirectoryTree) (path : String) (entry : Entry) : DirectoryTree :=
  let names := names path
  (tree.makeDirectories tree.workingDirectory names.dropLast).put
    (tree.workingDirectory ++ names) entry

/-- The files below the working directory, by their paths relative to it. -/
def files (tree : DirectoryTree) : List (String × Bytes) :=
  tree.entries.filterMap fun (location, entry) =>
    match entry with
    | .file content =>
      if tree.workingDirectory.isPrefixOf location then
        some ("/".intercalate (location.drop tree.workingDirectory.length), content)
      else none
    | _ => none

end DirectoryTree

end StackLang
