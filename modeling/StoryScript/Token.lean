import StoryScript.Source.Span
/-!
# Tokens

What a story script is made of on the page: layout, comments, dialogue, structure, choices, calls,
and text that is none of these.
-/

namespace StoryScript

/-- What a token is, with the text it carries. -/
inductive Token.Kind where
  /-- The end of the source. -/
  | eof
  /-- One level of indentation entered. -/
  | indent
  /-- One level of indentation left. -/
  | dedent
  | newline
  /-- `# comment`, the `#` included. -/
  | comment (text : String)
  /-- One line of text inside a block comment. -/
  | commentText (text : String)
  | commentOpen
  | commentClose
  /-- A double quote and a space, which open a replica. -/
  | replicaBegin
  /-- The end of a replica, which nothing in the source marks. -/
  | replicaEnd
  /-- One stretch of a replica's text. -/
  | speech (text : String)
  /-- `->` or `=>`. -/
  | goto (arrow : String)
  /-- `@name`, carried without the `@`. -/
  | tag (name : String)
  /-- The value after a tag or a choice tag, as written. -/
  | tagValue (text : String)
  /-- `==`. -/
  | header
  /-- The name of a section or the target of a goto. -/
  | identifier (name : String)
  /-- `+` at the start of a line. -/
  | choice
  /-- `@@name`, carried with the second `@`. -/
  | choiceTag (name : String)
  /-- One stretch of a choice's text. -/
  | choiceText (text : String)
  /-- The border of a choice's text, silent when the source does not show it. -/
  | choiceBound (silent : Bool)
  /-- `@call:name`. -/
  | call (name : String)
  /-- One argument of a call. -/
  | argument (text : String)
  /-- Text that is no token. -/
  | error (text : String)
deriving DecidableEq, Repr

/-- A token and where it stands. -/
structure Token where
  kind : Token.Kind
  span : Span
deriving DecidableEq, Repr

namespace Token.Kind

/-- Line ends and comments, which no statement is made of. -/
def isTrivia : Kind → Bool
  | newline | comment _ | commentText _ | commentOpen | commentClose => true
  | _ => false

/-- The levels of indentation. -/
def isLevel : Kind → Bool
  | indent | dedent => true
  | _ => false

/-- The text a token stands for, where it stands for one. -/
def value : Kind → Option String
  | comment t | commentText t | speech t | goto t | tag t | tagValue t | identifier t
  | choiceTag t | choiceText t | call t | argument t | error t => some t
  | choiceBound false => some "```"
  | choiceBound true => some ""
  | newline => some "\n"
  | commentOpen => some "/*"
  | commentClose => some "*/"
  | eof | indent | dedent | replicaBegin | replicaEnd | header | choice => none

/-- The name of the kind for a reader. -/
def name : Kind → String
  | eof => "end of input"
  | indent => "indent"
  | dedent => "dedent"
  | newline => "newline"
  | comment _ => "comment"
  | commentText _ => "comment content"
  | commentOpen => "'/*'"
  | commentClose => "'*/'"
  | replicaBegin => "replica"
  | replicaEnd => "end of replica"
  | speech _ => "text"
  | goto _ => "goto"
  | tag _ => "tag"
  | tagValue _ => "tag value"
  | header => "'=='"
  | identifier _ => "identifier"
  | choice => "'+'"
  | choiceTag _ => "choice tag"
  | choiceText _ => "choice text"
  | choiceBound _ => "'```'"
  | call _ => "call"
  | argument _ => "call argument"
  | error _ => "error"

end Token.Kind

namespace Token

/-- Line ends and comments. -/
def isTrivia (t : Token) : Bool := t.kind.isTrivia

/-- Whether a token counts for the extent of what it belongs to: neither trivia nor a level. -/
def isSolid (t : Token) : Bool := !t.kind.isTrivia && !t.kind.isLevel

/-- From the first to the last solid token. -/
def extent (tokens : List Token) : Option Span :=
  match tokens.filter isSolid with
  | [] => none
  | t :: ts => some (t.span.through ((t :: ts).getLast (by simp)).span)

end Token

end StoryScript
