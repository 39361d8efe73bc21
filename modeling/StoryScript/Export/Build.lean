import StoryScript.Check
import StoryScript.Export.Document
/-!
# Exporting a source
-/

namespace StoryScript.Export

/-- The document of a story that has been read, with what its check says if that is wanted. -/
def ofParsed (now : String) (options : Options) (parsed : Parsed) : Document :=
  let checked := if options.validated then (validate parsed.story).map Diagnostic.issue else []
  .current now options.shape (parsed.issues ++ checked) parsed.story.sections

/-- A source as it is exported: checked in full, or only read. -/
def read (options : Options) (source : String) : Parsed :=
  if options.validated then
    let checked := check source
    ⟨checked.story, checked.diagnostics⟩
  else parseSource source

/-- The document of a source. Strict options reject a story with errors among its issues. -/
def build (now : String) (options : Options) (source : String) : Except Rejection Document :=
  let parsed := read options source
  match if options.strict then Rejection.ofIssues? parsed.issues else none with
  | some rejection => .error rejection
  | none => .ok (.current now options.shape parsed.issues parsed.story.sections)

/-- A source as the bytes of its document. -/
def encodeSource (now : String) (options : Options) (source : String) :
    Except Rejection ByteArray :=
  (build now options source).map (·.encode options.encoding options.pretty)

end StoryScript.Export
