import StoryScript.Check
import StoryScript.CommandLine
import StoryScript.Export.Build
import StoryScript.Export.Clock
import StoryScript.Export.Document
import StoryScript.Export.File
import StoryScript.Export.Json
import StoryScript.Export.MessagePack
import StoryScript.Export.Options
import StoryScript.Export.Value
import StoryScript.Files.FileSystem
import StoryScript.Files.Path
import StoryScript.Issue
import StoryScript.Main
import StoryScript.Source.Position
import StoryScript.Source.Span
import StoryScript.Story
import StoryScript.Story.Parser
import StoryScript.Story.Segments
import StoryScript.Story.Validation
import StoryScript.Text.Arguments
import StoryScript.Text.Blank
import StoryScript.Text.CaseIgnorableTable
import StoryScript.Text.CasedTable
import StoryScript.Text.Lowercase
import StoryScript.Text.LowercaseTable
import StoryScript.Token
import StoryScript.Token.Lexer
import StoryScript.Token.Lookbehind
import StoryScript.Token.Piece
import StoryScript.Token.Reader
import StoryScript.Token.Scanner
import StoryScript.Proofs.Source.Place
import StoryScript.Proofs.Source.Order
import StoryScript.Proofs.Text.Margins
import StoryScript.Proofs.Text.Arguments
import StoryScript.Proofs.Token.Lexemes
import StoryScript.Proofs.Token.Units
import StoryScript.Proofs.Token.Order
import StoryScript.Proofs.Token.Lines
import StoryScript.Proofs.Token.Shift
import StoryScript.Proofs.Token.Replicas
import StoryScript.Proofs.Token.Plain
import StoryScript.Proofs.Token.Joining
import StoryScript.Proofs.Token.Coverage
import StoryScript.Proofs.Token.Names
import StoryScript.Proofs.Token.Clauses
import StoryScript.Proofs.Story.Blocks
import StoryScript.Proofs.Story.Statements
import StoryScript.Proofs.Story.Tags
import StoryScript.Proofs.Story.Errors
import StoryScript.Proofs.Story.Joining
import StoryScript.Proofs.Story.Nesting
import StoryScript.Proofs.Story.Cursor
import StoryScript.Proofs.Story.Segments
import StoryScript.Proofs.Story.Told
import StoryScript.Proofs.Canonical.Story
import StoryScript.Proofs.Canonical.Calm
import StoryScript.Proofs.Canonical.Rows
import StoryScript.Proofs.Canonical.Tokens
import StoryScript.Proofs.Canonical.Items
import StoryScript.Proofs.Canonical.RoundTrip
import StoryScript.Proofs.Story.Arguments
import StoryScript.Proofs.Story.Spans
import StoryScript.Proofs.Export.Strict
import StoryScript.Proofs.LineEnds.Reading
import StoryScript.Proofs.LineEnds.Lexer
import StoryScript.Proofs.LineEnds.Tokens
import StoryScript.Proofs.LineEnds.Parser
import StoryScript.Proofs.LineEnds.Check
import StoryScript.Proofs.LineEnds.Export
import StoryScript.Proofs.BlankLines.Padding
import StoryScript.Proofs.BlankLines.Parser
import StoryScript.Proofs.BlankLines.Lexer
import StoryScript.Proofs.BlankLines.Tokens
import StoryScript.Proofs.BlankLines.Check
import StoryScript.Proofs.Story.References
import StoryScript.Proofs.Story.Duplicates
import StoryScript.Proofs.Story.Validator
import StoryScript.Proofs.Story.Reachable
import StoryScript.Proofs.Story.Sections
import StoryScript.Proofs.Token.Grammar
import StoryScript.Proofs.Token.Texts
import StoryScript.Proofs.Token.Copies
import StoryScript.Proofs.Token.Escaped
import StoryScript.Proofs.Token.ChoiceTexts
import StoryScript.Proofs.Story.Slices
import StoryScript.Proofs.Story.ChoiceTexts
import StoryScript.Proofs.Story.Trees
import StoryScript.Proofs.Story.Partition
import StoryScript.Proofs.Export.Documents
import StoryScript.Proofs.Export.Files
import StoryScript.Proofs.Indexed.Guarded
import StoryScript.Proofs.Indexed.Segments
import StoryScript.Proofs.Story.Escapes
import StoryScript.Proofs.Indexed.Items
import StoryScript.Proofs.Indexed.Choices
import StoryScript.Proofs.Indexed.Parser
import StoryScript.Proofs.Token.Levels
import StoryScript.Proofs.Bytewise.Readers
import StoryScript.Proofs.Bytewise.Calls
import StoryScript.Proofs.Bytewise.Scanners
import StoryScript.Proofs.Bytewise.Lexer
