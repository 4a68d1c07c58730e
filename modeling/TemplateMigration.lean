import TemplateMigration.Binary64
import TemplateMigration.Command.Arguments
import TemplateMigration.Command.JsonText
import TemplateMigration.Command.Outcome
import TemplateMigration.Command.Style
import TemplateMigration.Expression.Alias
import TemplateMigration.Expression.Edit
import TemplateMigration.Expression.Filter
import TemplateMigration.Expression.Lexeme
import TemplateMigration.Expression.Literal
import TemplateMigration.Expression.Repeat
import TemplateMigration.Expression.Token
import TemplateMigration.Expression.Tokens
import TemplateMigration.Failure
import TemplateMigration.Main
import TemplateMigration.Markup.Event
import TemplateMigration.Markup.Forest
import TemplateMigration.Markup.Node
import TemplateMigration.Markup.VoidEndTag
import TemplateMigration.Message
import TemplateMigration.Migration
import TemplateMigration.Patch
import TemplateMigration.Project.Discovery
import TemplateMigration.Project.FileTree
import TemplateMigration.Project.Glob
import TemplateMigration.Project.Ignore
import TemplateMigration.Project.Report
import TemplateMigration.Proofs.Expression.Edits
import TemplateMigration.Proofs.Expression.Escape
import TemplateMigration.Proofs.Expression.FilterSearch
import TemplateMigration.Proofs.Expression.LongestMatch
import TemplateMigration.Proofs.Expression.Pattern
import TemplateMigration.Proofs.Expression.PipeText
import TemplateMigration.Proofs.Expression.Relexing
import TemplateMigration.Proofs.Expression.Spans
import TemplateMigration.Proofs.Expression.StringArguments
import TemplateMigration.Proofs.Expression.StringValue
import TemplateMigration.Proofs.Expression.Tiling
import TemplateMigration.Proofs.Markup.Fidelity
import TemplateMigration.Proofs.Markup.Nesting
import TemplateMigration.Proofs.Markup.Placement
import TemplateMigration.Proofs.Markup.Preorder
import TemplateMigration.Proofs.Markup.Printer
import TemplateMigration.Proofs.Markup.RoundTrip
import TemplateMigration.Proofs.Migration.Layout
import TemplateMigration.Proofs.Migration.Parts
import TemplateMigration.Proofs.Migration.Splice
import TemplateMigration.Proofs.Migration.Success
import TemplateMigration.Proofs.Migration.Visible
import TemplateMigration.Proofs.Patch.Chain
import TemplateMigration.Proofs.Patch.Chunks
import TemplateMigration.Proofs.Patch.Cover
import TemplateMigration.Proofs.Patch.Edges
import TemplateMigration.Proofs.Patch.Order
import TemplateMigration.Proofs.Patch.Refusal
import TemplateMigration.Proofs.Patch.Sheet
import TemplateMigration.Proofs.Session.Memory
import TemplateMigration.Proofs.Text.Boundary
import TemplateMigration.Rule.Apply
import TemplateMigration.Rule.Currency
import TemplateMigration.Rule.Pipe
import TemplateMigration.Rule.RuleSet
import TemplateMigration.Rule.Table
import TemplateMigration.Rule.Transform
import TemplateMigration.Session
import TemplateMigration.Settings
import TemplateMigration.Text.Blank
import TemplateMigration.Text.Bytes
import TemplateMigration.Text.Cursor
import TemplateMigration.Text.Line
import TemplateMigration.Text.LineDiff
import TemplateMigration.Text.Word
import TemplateMigration.Toml.Document
import TemplateMigration.Toml.Scalar
import TemplateMigration.Toml.Value
import TemplateMigration.Proofs.Migration.FilterChain
import TemplateMigration.Proofs.Migration.Anchors
import TemplateMigration.Proofs.Migration.Continuation
import TemplateMigration.Proofs.Markup.Reading
import TemplateMigration.Proofs.Markup.Lossless
import TemplateMigration.Proofs.Markup.Outline
import TemplateMigration.Proofs.Migration.PlainText
import TemplateMigration.Proofs.Expression.RepeatText
import TemplateMigration.Proofs.Markup.Sweeping
import TemplateMigration.Proofs.Migration.Rereading
import TemplateMigration.Proofs.Migration.Shape
import TemplateMigration.Proofs.Migration.Settling
import TemplateMigration.Proofs.Migration.Blocking
import TemplateMigration.Proofs.Migration.Reported
import TemplateMigration.Proofs.Migration.DefaultEdits
import TemplateMigration.Proofs.Migration.Infos
import TemplateMigration.Proofs.Project.Places
import TemplateMigration.Proofs.Project.Walk
import TemplateMigration.Proofs.Project.Discovered
import TemplateMigration.Proofs.Project.Reports
import TemplateMigration.Proofs.Command.JsonReport
import TemplateMigration.Proofs.Command.Agreement
import TemplateMigration.Proofs.Command.AllOrNothing
import TemplateMigration.Proofs.Markup.TreeOrder
import TemplateMigration.Proofs.Markup.RawBodies
import TemplateMigration.Proofs.Migration.RepeatForm
import TemplateMigration.Proofs.Migration.InOrder
import TemplateMigration.Proofs.Text.LineIndex
import TemplateMigration.Proofs.Migration.Walking
import TemplateMigration.Proofs.Migration.Subjects
import TemplateMigration.Proofs.Markup.LeftoverTags
import TemplateMigration.Proofs.Rule.Layers
import TemplateMigration.Proofs.Expression.QuotedStrings
import TemplateMigration.Proofs.Expression.CleanText
import TemplateMigration.Proofs.Migration.AliasInStrings
import TemplateMigration.Proofs.Migration.AliasRelexing
import TemplateMigration.Proofs.Migration.AliasStrings
import TemplateMigration.Proofs.Expression.NumberEquality
import TemplateMigration.Proofs.Markup.ByteReading
import TemplateMigration.Proofs.Markup.ByteScan
import TemplateMigration.Proofs.Markup.Progress
