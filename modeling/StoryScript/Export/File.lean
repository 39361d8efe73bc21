import StoryScript.Export.Build
import StoryScript.Files.FileSystem
/-!
# Exporting a file

The input is read, its document is built, and only then the output is written.
-/

namespace StoryScript.Export

open Files (Disk Failure)

/-- What the exporter was doing with a file. -/
inductive Action where
  | reading
  | writing
deriving DecidableEq, Repr

/-- The word for an action. -/
def Action.name : Action → String
  | reading => "read"
  | writing => "write"

/-- Why nothing was exported. -/
inductive Error where
  | file (action : Action) (path : String) (failure : Failure)
  | rejected (rejection : Rejection)
deriving DecidableEq, Repr

/-- What is said about an error. -/
def Error.message : Error → String
  | file action path failure =>
    "failed to " ++ action.name ++ " '" ++ path ++ "': " ++ failure.message
  | rejected rejection => rejection.message

/-- What has been exported. -/
structure Summary where
  sections : Nat
  errors : Nat
  warnings : Nat
  bytes : Nat
deriving DecidableEq, Repr

/-- The summary of a document that was written as `content`. -/
def Document.summary (d : Document) (content : ByteArray) : Summary :=
  ⟨d.sections.length, errorCount d.issues, warningCount d.issues, content.size⟩

/-- Where the document of a file goes if nothing else is said. -/
def defaultOutput (input : String) (encoding : Encoding) : String :=
  Files.withExtension input encoding.extension

/-- The document of a file's content, as bytes and in numbers. -/
def exportContent (now : String) (options : Options) (input : String) (content : ByteArray) :
    Except Error (ByteArray × Summary) := do
  match String.fromUTF8? content with
  | none => .error (.file .reading input .notText)
  | some source =>
    match build now options source with
    | .error rejection => .error (.rejected rejection)
    | .ok document =>
      let bytes := document.encode options.encoding options.pretty
      .ok (bytes, document.summary bytes)

/-- Export the file `input` to the file `output`. -/
def exportFile {m : Type → Type} [Monad m] (disk : Disk m) (now : String) (options : Options)
    (input output : String) : m (Except Error Summary) := do
  match ← disk.read input with
  | .error failure => return .error (.file .reading input failure)
  | .ok content =>
    match exportContent now options input content with
    | .error error => return .error error
    | .ok (bytes, summary) =>
      match ← disk.write output bytes with
      | .error failure => return .error (.file .writing output failure)
      | .ok () => return .ok summary

end StoryScript.Export
