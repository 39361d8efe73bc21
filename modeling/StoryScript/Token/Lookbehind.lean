/-!
# What a place in the source looks like

The marks of a story script are recognised from the text that follows and from two facts about the
text before: whether a backslash stands there, and whether the line has held only spaces and tabs.
-/

namespace StoryScript

/-- What the text before a place tells about it. The default is the start of a line. -/
structure Lookbehind where
  /-- The character before is a backslash. -/
  escaped : Bool := false
  /-- Only spaces and tabs stand before it on its line. -/
  lineStart : Bool := true
deriving DecidableEq, Repr

/-- The two characters that indent. -/
def isSpacer (c : Char) : Bool := c == ' ' || c == '\t'

/-- Whether a line feed follows, alone or after a carriage return. -/
def atNewline : List Char → Bool
  | '\n' :: _ => true
  | '\r' :: '\n' :: _ => true
  | _ => false

/-- Whether the line is over. -/
def atLineEnd : List Char → Bool
  | [] => true
  | cs => atNewline cs

/-- Whether nothing that could prolong a mark follows. -/
def atSeparator : List Char → Bool
  | [] => true
  | c :: _ => c == ' ' || c == '\t' || c == '\n' || c == '\r'

/-- What opens a call statement. -/
def callMark : List Char := "@call:".toList

/-- What opens a call inside a text. -/
def inlineCallMark : List Char := "\x7bcall:".toList

/-- What encloses a choice text of several lines. -/
def boundMark : List Char := "```".toList

namespace Lookbehind

/-- What a place looks like once `c` has been read. -/
def next (b : Lookbehind) (c : Char) : Lookbehind :=
  ⟨c == '\\', c == '\n' || (b.lineStart && isSpacer c)⟩

/-- What a place looks like once a text has been read. -/
def past (b : Lookbehind) (text : List Char) : Lookbehind := text.foldl next b

@[simp] theorem past_nil (b : Lookbehind) : b.past [] = b := rfl

@[simp] theorem past_cons (b : Lookbehind) (c : Char) (cs : List Char) :
    b.past (c :: cs) = (b.next c).past cs := rfl

theorem past_append (b : Lookbehind) (s t : List Char) : b.past (s ++ t) = (b.past s).past t :=
  List.foldl_append

/-! ## Marks

A mark after a backslash is text. -/

/-- A double quote and a space, which open a replica. -/
def atReplica (b : Lookbehind) : List Char → Bool
  | '"' :: ' ' :: _ => !b.escaped
  | _ => false

/-- The sign of a tag. -/
def atTag (b : Lookbehind) : List Char → Bool
  | '@' :: _ => !b.escaped
  | _ => false

/-- The two signs of a choice tag. -/
def atChoiceTag (b : Lookbehind) : List Char → Bool
  | '@' :: '@' :: _ => !b.escaped
  | _ => false

/-- The mark of a call statement. -/
def atCall (b : Lookbehind) (cs : List Char) : Bool := !b.escaped && callMark.isPrefixOf cs

/-- The mark of a call inside a text. -/
def atInlineCall (b : Lookbehind) (cs : List Char) : Bool :=
  !b.escaped && inlineCallMark.isPrefixOf cs

/-- The mark of a section, with nothing to prolong it. -/
def atHeader (b : Lookbehind) : List Char → Bool
  | '=' :: '=' :: cs => !b.escaped && atSeparator cs
  | _ => false

/-- One of the two arrows, with nothing to prolong it. -/
def atGoto (b : Lookbehind) : List Char → Bool
  | '-' :: '>' :: cs => !b.escaped && atSeparator cs
  | '=' :: '>' :: cs => !b.escaped && atSeparator cs
  | _ => false

/-- The sign of a choice, first on its line. -/
def atChoice (b : Lookbehind) : List Char → Bool
  | '+' :: _ => !b.escaped && b.lineStart
  | _ => false

/-- The mark that encloses a choice text. -/
def atBound (b : Lookbehind) (cs : List Char) : Bool := !b.escaped && boundMark.isPrefixOf cs

/-- The parenthesis that opens an argument list. -/
def atParenthesis (b : Lookbehind) : List Char → Bool
  | '(' :: _ => !b.escaped
  | _ => false

/-- The sign of a comment up to the end of the line. -/
def atLineComment (b : Lookbehind) : List Char → Bool
  | '#' :: _ => !b.escaped
  | _ => false

/-- The mark that opens a block comment. -/
def atCommentOpen (b : Lookbehind) : List Char → Bool
  | '/' :: '*' :: _ => !b.escaped
  | _ => false

/-- The mark that closes a block comment. -/
def atCommentClose (b : Lookbehind) : List Char → Bool
  | '*' :: '/' :: _ => !b.escaped
  | _ => false

/-- Where a comment of either kind begins. -/
def atComment (b : Lookbehind) (cs : List Char) : Bool := b.atCommentOpen cs || b.atLineComment cs

/-- Where an open replica has to end. -/
def endsReplica (b : Lookbehind) (cs : List Char) : Bool :=
  b.atReplica cs || b.atTag cs || b.atHeader cs || b.atGoto cs || b.atChoice cs

/-- Where a token begins that ends a tag's value or a stretch of stray text. -/
def startsToken (b : Lookbehind) (cs : List Char) : Bool :=
  b.atComment cs || b.endsReplica cs || b.atBound cs

end Lookbehind

end StoryScript
