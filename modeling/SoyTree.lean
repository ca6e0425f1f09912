import SoyTree.Assertion
import SoyTree.CommandLine
import SoyTree.Files
import SoyTree.Format
import SoyTree.Format.Data
import SoyTree.Format.Json
import SoyTree.Format.Outline
import SoyTree.Format.Tag
import SoyTree.Format.Yaml
import SoyTree.Format.Yaml.Resolve
import SoyTree.Format.Yaml.Scalar
import SoyTree.Grammar.Body
import SoyTree.Grammar.Comment
import SoyTree.Grammar.Expression
import SoyTree.Grammar.File
import SoyTree.Grammar.Lexical
import SoyTree.Grammar.Template
import SoyTree.Json.Basic
import SoyTree.Json.Read
import SoyTree.Main
import SoyTree.Nesting
import SoyTree.Number.Binary64
import SoyTree.Number.Layout
import SoyTree.Number.Shortest
import SoyTree.Options
import SoyTree.Parse
import SoyTree.ParseError
import SoyTree.Path
import SoyTree.Query
import SoyTree.Rule.Basic
import SoyTree.Rule.Chars
import SoyTree.Rule.Failure
import SoyTree.Rule.Repeat
import SoyTree.Source.Lines
import SoyTree.Source.Position
import SoyTree.Text.Alphanumeric
import SoyTree.Text.Blank
import SoyTree.Text.Quoted
import SoyTree.Text.Ranges
import SoyTree.Text.Visible
import SoyTree.TextMatch
import SoyTree.Tree.Brief
import SoyTree.Tree.Expr
import SoyTree.Tree.Node
import SoyTree.Tree.Program
import SoyTree.Walk
import SoyTree.Proofs.Rule.Outcome
import SoyTree.Proofs.Rule.Reading
import SoyTree.Proofs.Rule.Repetition
import SoyTree.Proofs.Rule.Relates
import SoyTree.Proofs.Rule.Progress
import SoyTree.Proofs.Rule.Reentry
import SoyTree.Proofs.Rule.Failures
import SoyTree.Proofs.Rule.Blame
import SoyTree.Proofs.Concrete.Expr
import SoyTree.Proofs.Concrete.File
import SoyTree.Proofs.Grammar.Lexical
import SoyTree.Proofs.Grammar.Expression
import SoyTree.Proofs.Grammar.Body
import SoyTree.Proofs.Grammar.Template
import SoyTree.Proofs.Grammar.File
import SoyTree.Proofs.Grammar.Progress
import SoyTree.Proofs.Grammar.Reentry
import SoyTree.Proofs.Grammar.Values
import SoyTree.Proofs.Marks
import SoyTree.Proofs.Coverage
import SoyTree.Proofs.Expression.Stops
import SoyTree.Proofs.Expression.Question
import SoyTree.Proofs.Expression.Places
import SoyTree.Proofs.Expression.Trimmed
import SoyTree.Proofs.Expression.RawText
import SoyTree.Proofs.Expression.Ternary
import SoyTree.Proofs.Number.Rounding
import SoyTree.Proofs.Number.Shortest
import SoyTree.Proofs.Number.ReadBack
import SoyTree.Proofs.Expression.Canonical
import SoyTree.Proofs.Expression.Operands
import SoyTree.Proofs.Expression.ReadBack
import SoyTree.Proofs.Expression.TagEnd
import SoyTree.Proofs.Expression.Fallback
import SoyTree.Proofs.Nesting.Bound
import SoyTree.Proofs.Canonical.Lexical
import SoyTree.Proofs.Canonical.Commands
import SoyTree.Proofs.Canonical.Expression
import SoyTree.Proofs.Canonical.Body
import SoyTree.Proofs.Interpolation
import SoyTree.Proofs.Payload
import SoyTree.Proofs.Canonical.File
import SoyTree.Proofs.Printing.Layout
import SoyTree.Proofs.Printing.ReadBack
import SoyTree.Proofs.Grammar.Reports
import SoyTree.Proofs.Nesting.Prefix
import SoyTree.Proofs.Nesting.Indexed
import SoyTree.Proofs.Nesting.Limit
import SoyTree.Proofs.Truncation.Cut
import SoyTree.Proofs.Truncation.Body
import SoyTree.Proofs.Truncation.File
import SoyTree.Proofs.Grammar.Nodes
import SoyTree.Proofs.Shape
import SoyTree.Proofs.Names
import SoyTree.Proofs.Printing.Bare
import SoyTree.Proofs.Nesting.Brackets
import SoyTree.Proofs.Nesting.Exact
import SoyTree.Proofs.Apart.Body
import SoyTree.Proofs.Apart.File
import SoyTree.Proofs.Canonical.ReadBack
import SoyTree.Proofs.Apart.Doc
import SoyTree.Proofs.Apart.Parsed
import SoyTree.Proofs.Rule.Moved
import SoyTree.Proofs.Comments.Tree
import SoyTree.Proofs.Comments.Expression
import SoyTree.Proofs.Comments.Nesting
import SoyTree.Proofs.Comments.Insert
import SoyTree.Proofs.Format.Markup
import SoyTree.Proofs.Format.Listing
import SoyTree.Proofs.Source.Lines
import SoyTree.Proofs.Rule.Placed
import SoyTree.Proofs.Grammar.Placed
import SoyTree.Proofs.Refusal
import SoyTree.Proofs.DocLines
import SoyTree.Proofs.Grammar.Capture
import SoyTree.Proofs.Source.Order
import SoyTree.Proofs.Source.Slices
import SoyTree.Proofs.Resolution
import SoyTree.Proofs.Format.Entries
import SoyTree.Proofs.Format.Labels
import SoyTree.Proofs.Format.Outline
