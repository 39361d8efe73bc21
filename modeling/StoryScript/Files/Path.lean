/-!
# Paths

A path is its names with slashes between them. Slashes at the end and names that are a single dot do
not matter.
-/

namespace StoryScript.Files

/-- A path read backwards without what does not matter at its end. -/
def dropTail : List Char → List Char
  | '/' :: cs => dropTail cs
  | '.' :: '/' :: cs => dropTail ('/' :: cs)
  | cs => cs
termination_by cs => cs.length

/-- A name without its extension, which is what stands behind the last dot. A dot at the start
begins no extension. -/
def stem (name : List Char) : List Char :=
  match name.reverse.dropWhile (· ≠ '.') with
  | [] | ['.'] => name
  | _ :: before => before.reverse

/-- What stands behind the dot that ends a name's stem. -/
def extension (name : List Char) : List Char := name.drop ((stem name).length + 1)

/-- The name that a path ends in, behind the directory it lies in. A path that leads to its own
directory or to the one above ends in no name. -/
def lastName? (path : List Char) : Option (List Char × List Char) :=
  let reversed := dropTail path.reverse
  let name := (reversed.takeWhile (· ≠ '/')).reverse
  let directory := (reversed.dropWhile (· ≠ '/')).reverse
  if name = [] ∨ name = ['.'] ∨ name = ['.', '.'] then none else some (directory, name)

/-- A path with as many characters taken off its end as its extension has. -/
def shorten (path : List Char) : List Char :=
  match lastName? path with
  | none => path
  | some (_, name) => path.take (path.length - (extension name).length)

/-- A path whose name ends in its stem, a dot and `extension`. A path without a name stays as it
is. -/
def setExtension (path extension : List Char) : List Char :=
  match lastName? path with
  | none => path
  | some (directory, name) => directory ++ stem name ++ '.' :: extension

/-- A path with another extension. The old one goes first, so `..x` becomes `..`, which is the
directory above and takes no extension. -/
def withExtension (path extension : String) : String :=
  String.ofList (setExtension (shorten path.toList) extension.toList)

/-- The names of a path, empty ones included: a slash at the end has an empty name behind it. -/
def names (path : String) : List String := path.splitOn "/"

end StoryScript.Files
