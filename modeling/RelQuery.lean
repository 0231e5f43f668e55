import RelQuery.Fetch.Cell
import RelQuery.Json.Decode
import RelQuery.Plan.Chain
import RelQuery.Schema.Registry
import RelQuery.Session
import RelQuery.Settings.Document
import RelQuery.Proofs.Memo.Recall
import RelQuery.Proofs.Record.Batched
import RelQuery.Proofs.Sql.Grouping
import RelQuery.Proofs.Statement.Counting
import RelQuery.Proofs.Statement.JoinedRows
import RelQuery.Proofs.Statement.WellScoped
import RelQuery.Proofs.Sql.Alike
import RelQuery.Proofs.Sql.Paging
import RelQuery.Proofs.Statement.Layout
import RelQuery.Proofs.Statement.Steady
import RelQuery.Proofs.Statement.Widening
import RelQuery.Proofs.Statement.ChangedRows
import RelQuery.Proofs.Statement.Decoding
import RelQuery.Proofs.Statement.Values
import RelQuery.Proofs.Statement.Ambiguity
import RelQuery.Proofs.Sql.Renaming
import RelQuery.Proofs.Statement.Renamed
import RelQuery.Proofs.Statement.Dialects
import RelQuery.Proofs.Fetch.Orders
import RelQuery.Proofs.Sql.Filled
import RelQuery.Proofs.Statement.Grammatical
import RelQuery.Proofs.Statement.Refusals
import RelQuery.Proofs.Statement.FilterOrder
import RelQuery.Proofs.Sql.PageClause
import RelQuery.Proofs.Schema.Sealing
import RelQuery.Proofs.Statement.ExactJoins
import RelQuery.Proofs.Record.RoundTrips
import RelQuery.Proofs.Statement.GroupTexts
import RelQuery.Proofs.Statement.DerivedColumns
import RelQuery.Proofs.Record.Shapes
import RelQuery.Proofs.Record.Strategies
import RelQuery.Proofs.Record.Growth
import RelQuery.Proofs.Fetch.Cancellation
import RelQuery.Proofs.Record.LatePaths
import RelQuery.Proofs.Memo.Tallies
import RelQuery.Proofs.Plan.Naming
import RelQuery.Proofs.Record.KeyColumns
import RelQuery.Proofs.Statement.FullFetch
import RelQuery.Proofs.Plan.Unfolding
import RelQuery.Proofs.Schema.Paths
import RelQuery.Proofs.Statement.AliasLimits
import RelQuery.Proofs.Statement.OpenTables
