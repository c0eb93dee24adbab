import Isolation.Recorded.Format
import Isolation.Text.Utf8

/-!
# Trees of Files

Files, directories and devices as a plain value, with the operations that a program can ask a machine
for. A program that runs on such a tree is a function, so what it does to files can be reasoned about.

A path is followed name by name, from the root if it begins with a slash and from the working directory
if not. Every name but the last has to lead through a directory. That holds for a single dot and for two
dots as well: `a/..` is where `a` is, but only if `a` is a directory.

What is asked for decides what the last name may be. A file is read where it is found. A file that is
created may be missing, but the path must not end in a slash, because only a directory can be meant
then. A directory that is made has to be missing. Making all the directories of a path is a loop around
that: it tries the longest path first, and shorter ones as long as something on the way is missing.

## Main definitions

* `FileTree`, `FileFault`: Trees of files, and why a file cannot be reached.
* `FileTree.read`, `FileTree.create`, `FileTree.append`: Operations on files.
-/

namespace Isolation.CommandLine

/-- Why a file cannot be reached. -/
inductive FileFault where
  | notFound
  | alreadyExists
  | notDirectory
  | isDirectory
  | noSpace
  /-- A path, or a name in it, has too many bytes. -/
  | nameTooLong
  /-- Anything else, with the words of the machine and its number for it. -/
  | other (words : String) (number : Nat)
deriving DecidableEq, Repr

def FileFault.message : FileFault → String
  | .notFound => "No such file or directory (os error 2)"
  | .alreadyExists => "File exists (os error 17)"
  | .notDirectory => "Not a directory (os error 20)"
  | .isDirectory => "Is a directory (os error 21)"
  | .noSpace => "No space left on device (os error 28)"
  | .nameTooLong => "File name too long (os error 36)"
  | .other words number => words ++ " (os error " ++ Nat.repr number ++ ")"

/-- The names that lead from the root to an entry. -/
abbrev Place : Type := List (List Char)

/-- What stands at a place. -/
inductive Entry where
  | directory
  | file (content : List UInt8)
  /-- A device that is always empty and forgets what it is given. -/
  | sink
  | full
deriving DecidableEq, Repr

/-- Entries at their places, and the place where relative paths begin. The root is a directory. -/
structure FileTree where
  entries : List (Place × Entry)
  workingDirectory : Place
deriving DecidableEq, Repr

def byteLength (text : List Char) : Nat :=
  (Text.encodeUtf8 text).length

def nameLimit : Nat := 255

def pathLimit : Nat := 4095

/-- A path, taken apart. -/
structure Route where
  fromRoot : Bool
  /-- The names in order, dots included. -/
  names : List (List Char)
  /-- The path ends in a slash, so that only a directory can be meant. -/
  wantsDirectory : Bool
deriving DecidableEq, Repr

def Route.ofPath (path : String) : Except FileFault Route :=
  if path.isEmpty then .error .notFound
  else if byteLength path.toList > pathLimit then .error .nameTooLong
  else
    let pieces := Path.splitSlash path.toList
    .ok ⟨pieces.head? = some [], pieces.filter (· ≠ []), pieces.getLast? = some []⟩

/-- A path and the shorter ones that lead to it, the longest first. A single dot leads nowhere, so it
    makes no step of its own. -/
def pathAndParents (path : String) : List String :=
  let parts := Path.parts path
  let root := if path.startsWith "/" then "/" else ""
  let parents := (List.range (parts.length - 1)).map fun i =>
    root ++ String.intercalate "/" ((parts.take (i + 1)).map String.ofList)
  path :: parents.reverse

namespace FileTree

def empty : FileTree := ⟨[], []⟩

def entry? (tree : FileTree) (place : Place) : Option Entry :=
  if place.isEmpty then some .directory else tree.entries.lookup place

/-- The tree with an entry at a place, instead of what stood there. -/
def put (tree : FileTree) (place : Place) (entry : Entry) : FileTree :=
  { tree with entries := (place, entry) :: tree.entries.filter fun known => known.1 ≠ place }

def isDirectory (tree : FileTree) (place : Place) : Bool :=
  tree.entry? place = some .directory

/-- The tree with a file at a place, and with the directories that lead to it. -/
def plant (tree : FileTree) (place : Place) (content : List UInt8) : FileTree :=
  let ways := (List.range place.length).map place.take
  let tree := (ways.filter fun way => !tree.isDirectory way).foldl (fun tree way =>
    tree.put way .directory) tree
  tree.put place (.file content)

/-- A single dot or two of them stand for a directory, not for an entry in it. -/
def isDots (name : List Char) : Bool :=
  name = ['.'] || name = ['.', '.']

/-- One step from a place that has to be a directory. The root is its own parent. -/
def follow (tree : FileTree) (place : Place) (name : List Char) : Except FileFault Place :=
  if !tree.isDirectory place then .error .notDirectory
  else if name = ['.'] then .ok place
  else if name = ['.', '.'] then .ok place.dropLast
  else if byteLength name > nameLimit then .error .nameTooLong
  else if (tree.entry? (place ++ [name])).isNone then .error .notFound
  else .ok (place ++ [name])

def start (tree : FileTree) (route : Route) : Place :=
  if route.fromRoot then [] else tree.workingDirectory

/-- The place that a path leads to. Something stands there. -/
def locate (tree : FileTree) (path : String) : Except FileFault Place := do
  let route ← Route.ofPath path
  let place ← route.names.foldlM tree.follow (tree.start route)
  if route.wantsDirectory && !tree.isDirectory place then .error .notDirectory
  else return place

/-- The directory of the last name of a route, and that name. There is none if the route is without names
    or ends in dots, because it leads to a directory then. -/
def lastStep (tree : FileTree) (route : Route) : Except FileFault (Place × Option (List Char)) := do
  let directory ← route.names.dropLast.foldlM tree.follow (tree.start route)
  if !tree.isDirectory directory then .error .notDirectory
  else return (directory, route.names.getLast?.filter fun name => !isDots name)

def read (tree : FileTree) (path : String) : Except FileFault (List UInt8) := do
  let place ← tree.locate path
  match tree.entry? place with
  | some (.file content) => return content
  | some .directory => .error .isDirectory
  | some _ => return []
  | none => .error .notFound

/-- The tree with an empty file, be it a new one or one that has lost its content. -/
def create (tree : FileTree) (path : String) : Except FileFault FileTree := do
  let route ← Route.ofPath path
  let (directory, some name) ← tree.lastStep route | .error .isDirectory
  if route.wantsDirectory then .error .isDirectory
  else if byteLength name > nameLimit then .error .nameTooLong
  else
    let place := directory ++ [name]
    match tree.entry? place with
    | some .directory => .error .isDirectory
    | some .sink => return tree
    | some .full => return tree
    | _ => return tree.put place (.file [])

/-- The tree with more bytes at the end of a file. -/
def append (tree : FileTree) (path : String) (bytes : List UInt8) : Except FileFault FileTree := do
  let place ← tree.locate path
  match tree.entry? place with
  | some (.file content) => return tree.put place (.file (content ++ bytes))
  | some .directory => .error .isDirectory
  | some .sink => return tree
  | some .full => if bytes.isEmpty then return tree else .error .noSpace
  | none => .error .notFound

def createDirectory (tree : FileTree) (path : String) : Except FileFault FileTree := do
  let route ← Route.ofPath path
  let (directory, some name) ← tree.lastStep route | .error .alreadyExists
  if byteLength name > nameLimit then .error .nameTooLong
  else
    let place := directory ++ [name]
    if (tree.entry? place).isSome then .error .alreadyExists
    else return tree.put place .directory

def leadsToDirectory (tree : FileTree) (path : String) : Bool :=
  (tree.locate path).toOption.any tree.isDirectory

/-- The tree with a directory that may have been there before. -/
def ensureDirectory (tree : FileTree) (path : String) : Except FileFault FileTree :=
  match tree.createDirectory path with
  | .error .alreadyExists =>
    if tree.leadsToDirectory path then .ok tree else .error .alreadyExists
  | result => result

/-- The tree with the first of the given directories, where the later ones may have to be made for it. -/
def ensureAlong (tree : FileTree) : List String → Except FileFault FileTree
  | [] => .ok tree
  | path :: parents =>
    match tree.ensureDirectory path with
    | .error .notFound => do (← tree.ensureAlong parents).ensureDirectory path
    | result => result

/-- The tree with a directory and those that lead to it; it is no fault if they exist. -/
def createDirectories (tree : FileTree) (path : String) : Except FileFault FileTree :=
  tree.ensureAlong (pathAndParents path)

end FileTree

end Isolation.CommandLine
