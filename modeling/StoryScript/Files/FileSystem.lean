import StoryScript.Files.Path
/-!
# Files

What the exporter asks of a disk is to read a file and to write one (`Disk`). `FileSystem` is a disk
in memory: a function from places to what stands there, so a write changes one place and leaves
every other as it was.
-/

namespace StoryScript.Files

/-- Why a file cannot be read or written. -/
inductive Failure where
  | notFound
  | notADirectory
  | isADirectory
  | notText
  /-- Anything else a disk can come upon. -/
  | other (reason : String)
deriving DecidableEq, Repr

/-- What is said about a failure. -/
def Failure.message : Failure → String
  | notFound => "No such file or directory (os error 2)"
  | notADirectory => "Not a directory (os error 20)"
  | isADirectory => "Is a directory (os error 21)"
  | notText => "stream did not contain valid UTF-8"
  | other reason => reason

/-- Reading and writing whole files. -/
structure Disk (m : Type → Type) where
  read : String → m (Except Failure ByteArray)
  write : String → ByteArray → m (Except Failure Unit)

/-- What stands at a place. -/
inductive Node where
  | directory
  | file (content : ByteArray)

/-- The names that lead to a place from the root. -/
abbrev Place := List String

/-- A disk in memory, and the directory that paths begin at. -/
structure FileSystem where
  node : Place → Option Node
  current : Place

namespace FileSystem

/-- Nothing but the current directory and those it lies in. -/
def empty (current : Place) : FileSystem :=
  ⟨fun place => if place.isPrefixOf current then some .directory else none, current⟩

/-- Change what stands at one place. -/
def put (fs : FileSystem) (place : Place) (node : Node) : FileSystem :=
  { fs with node := fun p => if p = place then some node else fs.node p }

/-- Put directories one inside the other, the first of them at a place. -/
def addDirectories (fs : FileSystem) (place : Place) : List String → FileSystem
  | [] => fs
  | name :: names => (fs.put (place ++ [name]) .directory).addDirectories (place ++ [name]) names

/-- The names of a path that lead somewhere. -/
def steps (path : String) : List String := (names path).filter fun name => name ≠ "" ∧ name ≠ "."

/-- Put a directory at a path below the current directory, and those it lies in. -/
def addDirectory (fs : FileSystem) (path : String) : FileSystem :=
  fs.addDirectories fs.current (steps path)

/-- Put a file at a path below the current directory, and the directories it lies in. -/
def addFile (fs : FileSystem) (path : String) (content : ByteArray) : FileSystem :=
  let below := steps path
  (fs.addDirectories fs.current below.dropLast).put (fs.current ++ below) (.file content)

/-- Whether a directory stands at a place. -/
def isDirectory (fs : FileSystem) (place : Place) : Bool :=
  match fs.node place with
  | some .directory => true
  | _ => false

/-- Follow names from a place. Each has to be looked up in a directory. -/
def follow (fs : FileSystem) : Place → List String → Except Failure Place
  | place, [] => .ok place
  | place, name :: names =>
    if fs.isDirectory place then
      if name = "" ∨ name = "." then fs.follow place names
      else if name = ".." then fs.follow place.dropLast names
      else if (fs.node (place ++ [name])).isSome then fs.follow (place ++ [name]) names
      else .error .notFound
    else .error .notADirectory

/-- Where a path begins: at the root if it begins with a slash. -/
def origin (fs : FileSystem) (path : String) : Place :=
  if path.startsWith "/" then [] else fs.current

/-- What a path leads to. -/
def find (fs : FileSystem) (path : String) : Except Failure Node :=
  if path = "" then .error .notFound
  else do
    let place ← fs.follow (fs.origin path) (names path)
    match fs.node place with
    | some node => .ok node
    | none => .error .notFound

/-- The content of the file a path leads to. -/
def read (fs : FileSystem) (path : String) : Except Failure ByteArray := do
  match ← fs.find path with
  | .file content => .ok content
  | .directory => .error .isADirectory

/-- The place of the file a path can be written to. Its directory has to be there, and its last name
has to name something that is not a directory. -/
def target (fs : FileSystem) (path : String) : Except Failure Place :=
  if path = "" then .error .notFound
  else do
    let all := names path
    let before := all.reverse.dropWhile (· = "")
    let directory ← fs.follow (fs.origin path) (before.drop 1).reverse
    if fs.isDirectory directory then
      match before.head? with
      | none => .error .isADirectory
      | some name =>
        let place := directory ++ [name]
        if name = "." ∨ name = ".." ∨ all.getLast? = some "" ∨ fs.isDirectory place then
          .error .isADirectory
        else .ok place
    else .error .notADirectory

/-- Write a file. Nothing changes if that fails. -/
def write (fs : FileSystem) (path : String) (content : ByteArray) :
    Except Failure Unit × FileSystem :=
  match fs.target path with
  | .ok place => (.ok (), fs.put place (.file content))
  | .error failure => (.error failure, fs)

/-- A file system as a disk. -/
def disk : Disk (StateM FileSystem) where
  read path := fun fs => (fs.read path, fs)
  write path content := fun fs => fs.write path content

end FileSystem

end StoryScript.Files
