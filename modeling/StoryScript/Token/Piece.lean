import StoryScript.Text.Blank
import StoryScript.Token
import StoryScript.Token.Reader
/-!
# Pieces of the source

A source is read into pieces that follow each other without a gap: their texts put together are the
source. Only then are tokens given their places, by walking over the pieces.
-/

namespace StoryScript

open Token (Kind)

/-- A stretch of the source and the tokens it stands for. -/
inductive Piece where
  /-- A text that is the text of each of the tokens: of none for space between tokens, of several
  for levels of indentation, and empty for tokens the source does not show. -/
  | covered (text : List Char) (kinds : List Kind)
  /-- A list of arguments from its opening parenthesis on. -/
  | arguments (list : ArgumentList)
deriving DecidableEq, Repr

namespace Piece

/-- Text that no token stands for. -/
def gap (text : List Char) : Piece := covered text []

/-- The text of one token. -/
def token (kind : Kind) (text : List Char) : Piece := covered text [kind]

/-- A token the source does not show. -/
def mark (kind : Kind) : Piece := covered [] [kind]

/-- The text of a piece in the source. -/
def text : Piece → List Char
  | covered text _ => text
  | arguments list => '(' :: list.text

/-- A text whose token leaves out the blanks at its ends. -/
def trimmed (kind : String → Kind) (text : List Char) : List Piece :=
  [gap (Text.leading text), token (kind (String.ofList (Text.trim text))) (Text.trim text),
    gap (Text.trailing (Text.trimStart text))]

/-- A text whose token leaves out the blanks at its end. -/
def trimmedEnd (kind : String → Kind) (text : List Char) : List Piece :=
  [token (kind (String.ofList (Text.trimEnd text))) (Text.trimEnd text),
    gap (Text.trailing text)]

/-! ## Places -/

/-- The token of an argument in a field that stands at `p`. A blank field has none. -/
def fieldToken (p : Position) (field : List Char) : List Token :=
  if Text.allBlank field then []
  else
    [⟨.argument (String.ofList (Text.trim field)),
      Span.ofText (p.advance (Text.leading field)) (Text.trim field)⟩]

/-- The tokens of fields that follow each other from `p` on, each behind a comma. -/
def fieldTokens : Position → List (List Char) → List Token
  | _, [] => []
  | p, field :: fields =>
    fieldToken (p.next ',') field ++ fieldTokens ((p.next ',').advance field) fields

/-- The tokens of a piece that stands at `p`. A list that does not close is an error from its
parenthesis on, after the arguments it holds. -/
def tokens (p : Position) : Piece → List Token
  | covered text kinds => kinds.map (⟨·, Span.ofText p text⟩)
  | arguments list =>
    fieldToken (p.next '(') list.first ++
      fieldTokens ((p.next '(').advance list.first) list.others ++
      if list.closed then []
      else
        let text := Text.trimEnd ('(' :: list.text)
        [⟨.error (String.ofList text), Span.ofText p text⟩]

/-- The text of pieces in a row. -/
def texts (pieces : List Piece) : List Char := pieces.flatMap text

/-- The tokens of pieces in a row, the first of which stands at `p`. -/
def place : Position → List Piece → List Token
  | _, [] => []
  | p, piece :: pieces => piece.tokens p ++ place (p.advance piece.text) pieces

/-! ## The end of a replica

A replica is found to be over at some later place, but ends with its last speech. -/

/-- What a replica can end behind: its last speech, or its beginning if it has none. -/
def holdsReplica : Piece → Bool
  | covered _ [.speech _] => true
  | covered _ [.replicaBegin] => true
  | _ => false

/-- Put a piece in front. The end of a replica that comes first moves ahead of it, unless the
replica ends behind this piece. -/
def pushSettled (piece : Piece) : List Piece → List Piece
  | covered [] [.replicaEnd] :: rest =>
    if piece.holdsReplica then piece :: mark .replicaEnd :: rest
    else mark .replicaEnd :: piece :: rest
  | rest => piece :: rest

/-- Move each end of a replica back to where the replica ends. -/
def settle (pieces : List Piece) : List Piece := pieces.foldr pushSettled []

end Piece

end StoryScript
