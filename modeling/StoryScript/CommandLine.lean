import StoryScript.Export.File
/-!
# The command line

Arguments are read one by one. Help and version answer as soon as they are reached, and so does an
argument that cannot be.
-/

namespace StoryScript.CommandLine

open Export (Options)
open Files (Disk)

/-- What the arguments read so far ask for. -/
structure Settings where
  input : Option String := none
  output : Option String := none
  full : Bool := false
  pretty : Bool := false
  messagePack : Bool := false
  strict : Bool := false
  validated : Bool := false
  /-- How often more messages were asked for. -/
  verbosity : Nat := 0
deriving DecidableEq, Repr

/-- The options of an export that settings ask for. -/
def Settings.options (s : Settings) : Options where
  shape := if s.full then .full else .simple
  encoding := if s.messagePack then .messagePack else .json
  pretty := s.pretty
  strict := s.strict
  validated := s.validated

/-- What a command line asks for. -/
inductive Request where
  | exportTo (input output : String) (options : Options)
  | help
  | version
  /-- Something the program does not understand. -/
  | misuse
deriving DecidableEq, Repr

/-- What the next argument can be. -/
inductive Expectation where
  | anything
  /-- The value of the option `output`. -/
  | outputValue
  /-- Only inputs, behind the argument that ends options. -/
  | inputOnly
deriving DecidableEq, Repr

/-- Where reading the arguments has come to. -/
inductive Reading where
  | going (settings : Settings) (expectation : Expectation)
  | done (request : Request)
deriving DecidableEq, Repr

namespace Settings

/-- An option without a value. Each is given at most once, except that messages add up. -/
def flag (s : Settings) (name : String) : Reading :=
  let once (given : Bool) (next : Settings) : Reading :=
    if given then .done .misuse else .going next .anything
  match name with
  | "full" => once s.full { s with full := true }
  | "pretty" => once s.pretty { s with pretty := true }
  | "msgpack" => once s.messagePack { s with messagePack := true }
  | "strict" => once s.strict { s with strict := true }
  | "validate" => once s.validated { s with validated := true }
  | "verbose" => .going { s with verbosity := s.verbosity + 1 } .anything
  | "help" => .done .help
  | "version" => .done .version
  | _ => .done .misuse

/-- The file to write, which is named at most once. -/
def setOutput (s : Settings) (value : String) : Reading :=
  if value = "" ∨ s.output.isSome then .done .misuse
  else .going { s with output := some value } .anything

/-- The file to read, which is named at most once. -/
def setInput (s : Settings) (value : String) (expectation : Expectation) : Reading :=
  if value = "" ∨ s.input.isSome then .done .misuse
  else .going { s with input := some value } expectation

/-- An option by its long name, with the value behind the equals sign if there is one. -/
def long (s : Settings) (name : String) (value : Option String) : Reading :=
  match name, value with
  | "output", none => .going s .outputValue
  | "output", some value => s.setOutput value
  | name, none => s.flag name
  | _, some _ => .done .misuse

/-- The long name of a letter. -/
def longName : Char → String
  | 'f' => "full"
  | 'p' => "pretty"
  | 'v' => "verbose"
  | 'h' => "help"
  | 'V' => "version"
  | _ => ""

/-- Options by their letters. What follows an `o` is its value, with or without an equals sign. -/
def short (s : Settings) : List Char → Reading
  | [] => .going s .anything
  | 'o' :: [] => .going s .outputValue
  | 'o' :: '=' :: value => s.setOutput (String.ofList value)
  | 'o' :: value => s.setOutput (String.ofList value)
  | c :: cs =>
    match s.flag (longName c) with
    | .going s _ => s.short cs
    | .done request => .done request

/-- An argument where anything can stand. A dash alone is a file. -/
def argument (s : Settings) (arg : String) : Reading :=
  match arg.toList with
  | ['-', '-'] => .going s .inputOnly
  | '-' :: '-' :: cs =>
    let name := cs.takeWhile (· ≠ '=')
    s.long (String.ofList name)
      (if name.length = cs.length then none else some (String.ofList (cs.drop (name.length + 1))))
  | '-' :: c :: cs => s.short (c :: cs)
  | _ => s.setInput arg .anything

/-- Whether an argument looks like an option. -/
def looksLikeOption (arg : String) : Bool :=
  match arg.toList with
  | '-' :: _ :: _ => true
  | _ => false

end Settings

/-- Read one more argument. -/
def Reading.next : Reading → String → Reading
  | done request, _ => done request
  | going s .inputOnly, arg => s.setInput arg .inputOnly
  | going s .outputValue, arg =>
    if Settings.looksLikeOption arg then done .misuse else s.setOutput arg
  | going s .anything, arg => s.argument arg

/-- What is asked for when all arguments have been read. -/
def Reading.request : Reading → Request
  | done request => request
  | going _ .outputValue => .misuse
  | going s _ =>
    match s.input with
    | none => .misuse
    | some input =>
      .exportTo input (s.output.getD (Export.defaultOutput input s.options.encoding)) s.options

/-- What arguments ask for. -/
def request (args : List String) : Request :=
  (args.foldl Reading.next (.going {} .anything)).request

/-! ## Answers -/

/-- What the program leaves behind, files aside. -/
structure Outcome where
  exitCode : UInt8
  stdout : String := ""
  stderr : String := ""
deriving DecidableEq, Repr

/-- How the program is called. -/
def usage : String := "Usage: kstory-export [OPTIONS] <INPUT>\n"

/-- The answer to a request for help. -/
def helpText : String :=
  "JSON and MessagePack export for story scripts\n\n" ++ usage ++
  "\nArguments:\n  <INPUT>  Story script to export\n\nOptions:\n" ++
  "  -o, --output <OUTPUT>  Output file " ++
  "(defaults to the input with a .json or .msgpack extension)\n" ++
  "  -f, --full             Keep source positions on every node and issue\n" ++
  "  -p, --pretty           Indent JSON output\n" ++
  "      --msgpack          Write MessagePack instead of JSON\n" ++
  "      --strict           Fail if the story has any error-level issue\n" ++
  "      --validate         Run the validator and include its issues\n" ++
  "  -v, --verbose...       Increase logging verbosity (-v, -vv, -vvv)\n" ++
  "  -h, --help             Print help\n" ++
  "  -V, --version          Print version\n"

/-- The answer to a request for the version. -/
def versionText : String := "kstory-export 0.1.0\n"

/-- A line in one of the terminal's colours. -/
def coloured (colour : Nat) (text : String) : String :=
  "\x1b[" ++ colour.repr ++ "m" ++ text ++ "\x1b[0m\n"

/-- The answer to an export that ended. -/
def report (output : String) : Except Export.Error Export.Summary → Outcome
  | .error error => { exitCode := 1, stderr := coloured 31 ("Error: " ++ error.message) }
  | .ok summary =>
    { exitCode := 0
      stdout := "Exported " ++ summary.sections.repr ++ " section(s) to " ++ output ++ " (" ++
        summary.bytes.repr ++ " bytes)\n"
      stderr :=
        if summary.errors = 0 ∧ summary.warnings = 0 then ""
        else coloured 33 (summary.errors.repr ++ " error(s), " ++ summary.warnings.repr ++
          " warning(s)") }

/-- Do what a command line asks for. -/
def run {m : Type → Type} [Monad m] (disk : Disk m) (now : String) (args : List String) :
    m Outcome :=
  match request args with
  | .help => pure { exitCode := 0, stdout := helpText }
  | .version => pure { exitCode := 0, stdout := versionText }
  | .misuse => pure { exitCode := 2, stderr := usage }
  | .exportTo input output options =>
    return report output (← Export.exportFile disk now options input output)

end StoryScript.CommandLine
