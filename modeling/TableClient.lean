import TableClient.Entity.Json
import TableClient.Expr.Native
import TableClient.Proofs.Batch.Grouping
import TableClient.Proofs.Batch.State
import TableClient.Proofs.Binary64.Monotone
import TableClient.Proofs.Binary64.Order
import TableClient.Proofs.Entity.Json
import TableClient.Proofs.Expr.Mirrored
import TableClient.Proofs.Expr.NormalForm
import TableClient.Proofs.Expr.Reduce
import TableClient.Proofs.Expr.RowUse
import TableClient.Proofs.Expr.TextPlace
import TableClient.Proofs.Filter.Alternative
import TableClient.Proofs.Filter.Balance
import TableClient.Proofs.Filter.Clause
import TableClient.Proofs.Filter.Faithful
import TableClient.Proofs.Filter.Family
import TableClient.Proofs.Filter.Gap
import TableClient.Proofs.Filter.Grouped
import TableClient.Proofs.Filter.Level
import TableClient.Proofs.Filter.LiteralForm
import TableClient.Proofs.Filter.LiteralQuotes
import TableClient.Proofs.Filter.Nesting
import TableClient.Proofs.Filter.OuterWord
import TableClient.Proofs.Filter.Piece
import TableClient.Proofs.Filter.Quotes
import TableClient.Proofs.Filter.Respelling
import TableClient.Proofs.Filter.Template
import TableClient.Proofs.Filter.Translated
import TableClient.Proofs.Filter.WellFormed
import TableClient.Proofs.Filter.Word
import TableClient.Proofs.Guid
import TableClient.Proofs.Instant.Calendar
import TableClient.Proofs.Instant.Lenient
import TableClient.Proofs.Instant.RoundTrip
import TableClient.Proofs.Instant.Years
import TableClient.Proofs.Json.Reread
import TableClient.Proofs.Json.Spelling
import TableClient.Proofs.Log.Line
import TableClient.Proofs.Query.Answers
import TableClient.Proofs.Query.Composition
import TableClient.Proofs.Query.Filtered
import TableClient.Proofs.Query.History
import TableClient.Proofs.Query.Inert
import TableClient.Proofs.Query.Projection
import TableClient.Proofs.Query.Requirement
import TableClient.Proofs.Query.Unfiltered
import TableClient.Proofs.Record.KeyText
import TableClient.Proofs.Record.LayoutCache
import TableClient.Proofs.Record.Names
import TableClient.Proofs.Record.NullKey
import TableClient.Proofs.Record.OwnValue
import TableClient.Proofs.Record.Renaming
import TableClient.Proofs.Record.Reorder
import TableClient.Proofs.Record.Roles
import TableClient.Proofs.Record.RoundTrip
import TableClient.Proofs.Record.Rows
import TableClient.Proofs.Text.Blank
import TableClient.Proofs.Value.Number
import TableClient.Proofs.Value.Rounded
import TableClient.Proofs.Value.Slot
import TableClient.Query.Chain
import TableClient.Query.Compiler
import TableClient.Query.History
import TableClient.Record.LayoutCache
import TableClient.Record.Schema
import TableClient.Settings
