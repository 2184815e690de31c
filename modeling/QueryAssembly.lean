import QueryAssembly.CommandLine.Compose
import QueryAssembly.CommandLine.Reader
import QueryAssembly.CommandLine.Request
import QueryAssembly.CommandLine.Value
import QueryAssembly.Error
import QueryAssembly.Field.Attachment
import QueryAssembly.Field.Occurrence
import QueryAssembly.Files.Disk
import QueryAssembly.Files.Path
import QueryAssembly.Files.Source
import QueryAssembly.Fragment.Resolve
import QueryAssembly.Json.Basic
import QueryAssembly.Json.Reader
import QueryAssembly.Json.Token
import QueryAssembly.Json.Writer
import QueryAssembly.Lexical.Ignored
import QueryAssembly.Lexical.Match
import QueryAssembly.Lexical.Scanner
import QueryAssembly.Lexical.State
import QueryAssembly.Main
import QueryAssembly.Number.Arithmetic
import QueryAssembly.Number.Double
import QueryAssembly.Number.Layout
import QueryAssembly.Number.Nearest
import QueryAssembly.Number.Numeral
import QueryAssembly.Number.Scaled
import QueryAssembly.Number.Shortest
import QueryAssembly.Proofs.CommandLine.Declaration
import QueryAssembly.Proofs.CommandLine.Options
import QueryAssembly.Proofs.CommandLine.Precedence
import QueryAssembly.Proofs.Document.Executable
import QueryAssembly.Proofs.Field.ClosingParenthesis
import QueryAssembly.Proofs.Field.Comment
import QueryAssembly.Proofs.Field.CommentedSearch
import QueryAssembly.Proofs.Field.DefinitionName
import QueryAssembly.Proofs.Field.Definitions
import QueryAssembly.Proofs.Field.Divergence
import QueryAssembly.Proofs.Field.Edit
import QueryAssembly.Proofs.Field.Front
import QueryAssembly.Proofs.Field.HeaderName
import QueryAssembly.Proofs.Field.Leftmost
import QueryAssembly.Proofs.Field.Parentheses
import QueryAssembly.Proofs.Field.Place
import QueryAssembly.Proofs.Field.Seam
import QueryAssembly.Proofs.Files.Location
import QueryAssembly.Proofs.Files.Walk
import QueryAssembly.Proofs.Fragment.Behind
import QueryAssembly.Proofs.Fragment.Cycle
import QueryAssembly.Proofs.Fragment.Expansion
import QueryAssembly.Proofs.Fragment.Junction
import QueryAssembly.Proofs.Fragment.Lexemes
import QueryAssembly.Proofs.Fragment.Nesting
import QueryAssembly.Proofs.Fragment.Opacity
import QueryAssembly.Proofs.Fragment.Pieces
import QueryAssembly.Proofs.Fragment.Reduced
import QueryAssembly.Proofs.Fragment.Remaining
import QueryAssembly.Proofs.Fragment.Replace
import QueryAssembly.Proofs.Fragment.Splice
import QueryAssembly.Proofs.Fragment.Trace
import QueryAssembly.Proofs.Fragment.Walk
import QueryAssembly.Proofs.Lexical.Agreement
import QueryAssembly.Proofs.Lexical.Ignored
import QueryAssembly.Proofs.Lexical.Join
import QueryAssembly.Proofs.Lexical.Label
import QueryAssembly.Proofs.Lexical.Lexeme
import QueryAssembly.Proofs.Lexical.Match
import QueryAssembly.Proofs.Lexical.Nested
import QueryAssembly.Proofs.Lexical.Slice
import QueryAssembly.Proofs.Lexical.Token
import QueryAssembly.Proofs.Registry.Given
import QueryAssembly.Proofs.Selection.Forest
import QueryAssembly.Proofs.Selection.Nested
import QueryAssembly.Proofs.Selection.Numbering
import QueryAssembly.Proofs.Selection.Scope
import QueryAssembly.Proofs.Selection.Stream
import QueryAssembly.Proofs.Session.Faultless
import QueryAssembly.Proofs.Session.FragmentFiles
import QueryAssembly.Proofs.Session.Interleaving
import QueryAssembly.Proofs.Session.Invariant
import QueryAssembly.Proofs.Session.Parts
import QueryAssembly.Proofs.Session.Paths
import QueryAssembly.Proofs.Session.Program
import QueryAssembly.Proofs.Text.ByteSearch
import QueryAssembly.Proofs.Text.Word
import QueryAssembly.Proofs.Value.Balanced
import QueryAssembly.Proofs.Value.Closed
import QueryAssembly.Proofs.Value.Literal
import QueryAssembly.Proofs.Value.Numeric
import QueryAssembly.Proofs.Value.Reader
import QueryAssembly.Proofs.Value.RoundTrip
import QueryAssembly.Proofs.Value.Tokens
import QueryAssembly.Proofs.Variable.BehindFragments
import QueryAssembly.Proofs.Variable.ByTokens
import QueryAssembly.Proofs.Variable.FirstKeyword
import QueryAssembly.Proofs.Variable.Header
import QueryAssembly.Proofs.Variable.HeaderEnd
import QueryAssembly.Proofs.Variable.Insertion
import QueryAssembly.Proofs.Variable.KeywordSearch
import QueryAssembly.Proofs.Variable.Repetition
import QueryAssembly.Registry
import QueryAssembly.Selection.Operation
import QueryAssembly.Selection.Tree
import QueryAssembly.Session.Basic
import QueryAssembly.Session.Build
import QueryAssembly.Session.Step
import QueryAssembly.Text.Basic
import QueryAssembly.Text.Blank
import QueryAssembly.Text.Name
import QueryAssembly.Text.Occurrence
import QueryAssembly.Text.Split
import QueryAssembly.Text.Utf8
import QueryAssembly.Value.Basic
import QueryAssembly.Value.Render
import QueryAssembly.Variable.Definition
import QueryAssembly.Variable.Inject
