import Pseudocode.Command.FileSystem
import Pseudocode.Text.Basic
set_option autoImplicit false

/-!
# Trees of files (SPEC §6.2)

A file system with directories, regular files, devices that take everything and keep nothing, and
a limit to what the regular files can hold.  A path starts at the root or, without a slash at its
front, at the working directory.  It names a file by the steps that lead to it; every step but the
last has to be a directory.
-/

namespace Pseudocode

/-- Directories and files, by the steps that lead to them from the root.  The regular files
together hold no more bytes than `capacity`, if there is one. -/
structure FileTree where
  working : List String
  directories : List (List String)
  files : List (List String × ByteArray)
  sinks : List (List String)
  capacity : Option Nat := none

namespace FileTree

/-- A tree whose working directory is empty.  There is a device that keeps nothing. -/
def empty : FileTree where
  working := ["work"]
  directories := [["dev"], ["work"]]
  files := []
  sinks := [["dev", "null"]]

/-! ## Paths -/

/-- The pieces of a path between its slashes. -/
def pieces : List Char → List (List Char)
  | [] => [[]]
  | c :: cs => if c = '/' then [] :: pieces cs else (pieces cs).modifyHead (c :: ·)

/-- The steps of a path; slashes in a row count as one. -/
def steps (path : String) : List String :=
  ((pieces path.toList).filter (!·.isEmpty)).map String.ofList

/-- A path with a slash at its end can only mean a directory. -/
def meansDirectory (path : String) : Bool :=
  path.toList.getLast? == some '/'

/-- The path from one directory down to a place below it. -/
def pathTo (location : List String) : String :=
  Text.join "/" location

/-! ## Where a path leads -/

/-- What can be opened for writing: a regular file, which need not be there yet, or a device. -/
inductive File where
  | regular (location : List String)
  | sink
  deriving DecidableEq, Repr, Inhabited

/-- What a path leads to: a directory, a regular file, a device, or a name that is free. -/
inductive Target where
  | directory
  | file (location : List String) (content : ByteArray)
  | sink
  | vacant (location : List String)

/-- What is opened for writing at the end of a path. -/
def Target.file? : Target → Option File
  | .directory => none
  | .file location _ => some (.regular location)
  | .sink => some .sink
  | .vacant location => some (.regular location)

/-- The content of the regular file at the given place. -/
def content? (tree : FileTree) (location : List String) : Option ByteArray :=
  tree.files.lookup location

/-- Why there is no way through a place that is no directory. -/
def obstacle (tree : FileTree) (location : List String) : FileError :=
  if (tree.content? location).isSome ∨ location ∈ tree.sinks then .notDirectory else .missing

/-- The directory that one step leads to. -/
def enter (tree : FileTree) (dir : List String) (step : String) :
    Except FileError (List String) :=
  if step = "." then .ok dir
  else if step = ".." then .ok dir.dropLast
  else if dir ++ [step] ∈ tree.directories then .ok (dir ++ [step])
  else .error (tree.obstacle (dir ++ [step]))

/-- The directory that several steps lead to. -/
def walk (tree : FileTree) : List String → List String → Except FileError (List String)
  | dir, [] => .ok dir
  | dir, step :: rest => do
    let next ← tree.enter dir step
    tree.walk next rest

/-- What the last step of a path leads to. -/
def arrive (tree : FileTree) (dir : List String) (step : String) : Target :=
  let location := dir ++ [step]
  if step = "." ∨ step = ".." ∨ location ∈ tree.directories then .directory
  else if location ∈ tree.sinks then .sink
  else
    match tree.content? location with
    | some content => .file location content
    | none => .vacant location

/-- The directory where a path starts. -/
def start (tree : FileTree) (path : String) : List String :=
  if path.toList.head? = some '/' then [] else tree.working

/-- What a path leads to. -/
def resolve (tree : FileTree) (path : String) : Except FileError Target :=
  match (steps path).getLast? with
  | none => if path = "" then .error .missing else .ok .directory
  | some last => do
    let dir ← tree.walk (tree.start path) (steps path).dropLast
    return tree.arrive dir last

/-! ## Reading and writing -/

/-- The content of the file at `path`. -/
def read (tree : FileTree) (path : String) : Except FileError ByteArray := do
  match ← tree.resolve path with
  | .directory => throw .isDirectory
  | .file _ content => if meansDirectory path then throw .notDirectory else return content
  | .sink => if meansDirectory path then throw .notDirectory else return .empty
  | .vacant _ => throw .missing

/-- The tree with a regular file of the given content, which is new or replaces the old one. -/
def put (tree : FileTree) (location : List String) (content : ByteArray) : FileTree :=
  { tree with files := tree.files.filter (·.1 ≠ location) ++ [(location, content)] }

/-- The tree with an empty file. -/
def clear (tree : FileTree) : File → FileTree
  | .regular location => tree.put location .empty
  | .sink => tree

/-- The file at `path`, if it can be opened for writing. -/
def writable (tree : FileTree) (path : String) : Except FileError File := do
  match (← tree.resolve path).file? with
  | none => throw .isDirectory
  | some file => if meansDirectory path then throw .isDirectory else return file

/-- Opens the file at `path` for writing. -/
def create (tree : FileTree) (path : String) : Except FileError File × FileTree :=
  match tree.writable path with
  | .error e => (.error e, tree)
  | .ok file => (.ok file, tree.clear file)

/-- How many bytes the regular files hold. -/
def used (tree : FileTree) : Nat :=
  tree.files.foldl (fun n f => n + f.2.size) 0

/-- The part of some bytes for which there is room. -/
def fitting (tree : FileTree) (bytes : ByteArray) : ByteArray :=
  match tree.capacity with
  | none => bytes
  | some n => bytes.extract 0 (n - tree.used)

/-- Writes to a file.  Where there is not enough room, it writes what fits and fails. -/
def write (tree : FileTree) (file : File) (bytes : ByteArray) : Except FileError Unit × FileTree :=
  match file with
  | .sink => (.ok (), tree)
  | .regular location =>
    let part := tree.fitting bytes
    (if part.size < bytes.size then .error .noSpace else .ok (),
      tree.put location ((tree.content? location).getD .empty ++ part))

instance : FileSystem FileTree where
  File := File
  read := read
  create := create
  write := write

/-! ## Trees from outside -/

/-- Adds a directory below the working directory, with all directories on the way. -/
def addDirectory (tree : FileTree) (path : String) : FileTree :=
  let parts := steps path
  let chain := (List.range parts.length).map fun n => tree.working ++ parts.take (n + 1)
  { tree with directories := tree.directories ++ chain }

/-- Adds a file below the working directory. -/
def addFile (tree : FileTree) (path : String) (content : ByteArray) : FileTree :=
  tree.put (tree.working ++ steps path) content

/-- The files below the working directory of `new` that `old` does not have with the same
content, in the order of their paths. -/
def changes (old new : FileTree) : List (String × ByteArray) :=
  let changed := new.files.filter fun f =>
    new.working.isPrefixOf f.1 && old.content? f.1 != some f.2
  (changed.map fun f => (pathTo (f.1.drop new.working.length), f.2)).mergeSort
    fun a b => !(b.1 < a.1)

end FileTree

end Pseudocode
