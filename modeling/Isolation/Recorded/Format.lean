/-!
# Formats of Recordings

A recording is kept in a file in one of three formats. Where nobody says which, the name of the file
decides: it is the extension of the last part of the path, and a file without one that is known holds a
transcript.

A name that begins with its only dot has no extension, and neither has a path that ends in the parent
directory.

## Main definitions

* `Format.detect`: The format that a path suggests.
-/

namespace Isolation

namespace Path

def splitSlash : List Char → List (List Char)
  | [] => [[]]
  | c :: rest =>
    if c = '/' then [] :: splitSlash rest
    else match splitSlash rest with
      | [] => [[c]]
      | part :: parts => (c :: part) :: parts

/-- The parts of a path that lead somewhere: neither empty nor a single dot. -/
def parts (path : String) : List (List Char) :=
  (splitSlash path.toList).filter fun part => part ≠ [] && part ≠ ['.']

/-- What stands behind the last dot of a name, unless the name begins with that dot. -/
def nameExtension? (name : List Char) : Option (List Char) :=
  let behind := (name.reverse.takeWhile (· ≠ '.')).reverse
  if behind.length + 1 < name.length then some behind else none

/-- The extension of the last part of a path. -/
def extension? (path : String) : Option (List Char) :=
  (parts path).getLast?.bind fun name => if name = ['.', '.'] then none else nameExtension? name

end Path

/-- How a recording is kept in a file. -/
inductive Format where
  | text
  | binary
  | json
deriving DecidableEq, Repr

def Format.detect (path : String) : Format :=
  match (Path.extension? path).map String.ofList with
  | some "json" => .json
  | some "log" => .binary
  | some "bin" => .binary
  | some "dbcop" => .binary
  | _ => .text

end Isolation
