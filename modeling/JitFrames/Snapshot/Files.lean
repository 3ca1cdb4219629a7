import JitFrames.Memory.Reader
import JitFrames.Snapshot.Path

namespace JitFrames

/-- Why a file cannot be read. -/
inductive FileFault where
  | notFound
  | notDirectory
  | isDirectory
  | nameTooLong
  | nulInName
  | notUtf8
  /-- Any other reason, in the words of the system. -/
  | other (text : String)
  deriving DecidableEq, Repr

def FileFault.message : FileFault → String
  | .notFound => "No such file or directory (os error 2)"
  | .notDirectory => "Not a directory (os error 20)"
  | .isDirectory => "Is a directory (os error 21)"
  | .nameTooLong => "File name too long (os error 36)"
  | .nulInName => "file name contained an unexpected NUL byte"
  | .notUtf8 => "stream did not contain valid UTF-8"
  | .other text => text

/-- How files are read, in a world of effects `m`. -/
abbrev ReadFile (m : Type → Type) := Path → m (Except FileFault Bytes)

/-- The text of a file. -/
def textOf (file : Except FileFault Bytes) : Except FileFault String := do
  match Utf8.decode? (← file).toList with
  | some text => return text
  | none => throw .notUtf8

/-- The names that lead to a file or a directory from the top of a tree. In front of them, `..`
leads above the top and `/` to the root of the system. -/
abbrev Place := List (List UInt8)

namespace Place

/-- The name of the directory around. -/
def above : List UInt8 := [Path.dot, Path.dot]

/-- In front of other names, the root of the system. -/
def root : List UInt8 := [Path.slash]

/-- Where a path starts. -/
def start (path : Path) : Place := if path.isAbsolute then [root] else []

/-- Whether a place is the top, the root or above the top, all of them directories. -/
def isOutermost (place : Place) : Bool := place.all fun name => name = above ∨ name = root

/-- The directory around a place; the root is its own. -/
def up (place : Place) : Place :=
  if !place.isOutermost then place.dropLast
  else if place = [root] then place
  else place ++ [above]

/-- Where a name leads. -/
def enter (place : Place) (name : List UInt8) : Place :=
  if name = [] ∨ name = [Path.dot] then place
  else if name = above then place.up
  else place ++ [name]

end Place

/-- A directory tree held in memory. Of two files at one place the first one listed counts. -/
structure FileTree where
  directories : List Place
  files : List (Place × Bytes)

namespace FileTree

def empty : FileTree := ⟨[], []⟩

/-- The tree in which every name leads to a directory, and the place where the last one leads. -/
def makeDirectories (tree : FileTree) (place : Place) : List (List UInt8) → FileTree × Place
  | [] => (tree, place)
  | name :: names =>
    let next := place.enter name
    makeDirectories { tree with directories := next :: tree.directories } next names

/-- The tree in which a file is written over what was there, and the directories that its path
goes through are made. -/
def write (tree : FileTree) (path : Path) (bytes : Bytes) : FileTree :=
  let (tree, place) := tree.makeDirectories (Place.start path) path.names.dropLast
  { tree with files := (path.names.getLast?.elim place place.enter, bytes) :: tree.files }

def fileAt? (tree : FileTree) (place : Place) : Option Bytes := tree.files.lookup place

def isDirectory (tree : FileTree) (place : Place) : Bool :=
  place.isOutermost || tree.directories.contains place

/-- Whether there is anything at a place. -/
def has (tree : FileTree) (place : Place) : Bool :=
  tree.isDirectory place || (tree.fileAt? place).isSome

/-- The longest name that a directory can hold, in bytes. -/
def maxName : Nat := 255

/-- The longest path that is looked up, in bytes. -/
def maxPath : Nat := 4095

/-- Follows names from a place. Each name must be looked up in a directory and lead to
something. -/
def follow (tree : FileTree) (place : Place) : List (List UInt8) → Except FileFault Place
  | [] => .ok place
  | name :: names =>
    if !tree.isDirectory place then .error .notDirectory
    else if maxName < name.length then .error .nameTooLong
    else if tree.has (place.enter name) then follow tree (place.enter name) names
    else .error .notFound

/-- Reads a file, with the top of the tree as the current directory. -/
def read (tree : FileTree) (path : Path) : Except FileFault Bytes := do
  if path.bytes.contains 0 then throw .nulInName
  if path.bytes.isEmpty then throw .notFound
  if maxPath < path.bytes.length then throw .nameTooLong
  let place ← tree.follow (Place.start path) path.names
  match tree.fileAt? place with
  | some bytes => return bytes
  | none => throw .isDirectory

end FileTree

end JitFrames
