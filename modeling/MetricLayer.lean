import MetricLayer.Diagnostic.Basic
import MetricLayer.Diagnostic.Fault
import MetricLayer.Digest.Sha256
import MetricLayer.Digraph.Basic
import MetricLayer.Digraph.Cycle
import MetricLayer.Digraph.Pending
import MetricLayer.Digraph.PostOrder
import MetricLayer.Expression.AggregateCall
import MetricLayer.Expression.Condition
import MetricLayer.Expression.Placeholder
import MetricLayer.Json.Basic
import MetricLayer.Json.Printer
import MetricLayer.Json.Reader
import MetricLayer.Json.Record
import MetricLayer.Measure.Aggregation
import MetricLayer.Measure.Compile
import MetricLayer.Number.Binary64
import MetricLayer.Number.Decimal
import MetricLayer.Number.Layout
import MetricLayer.Number.Numeral
import MetricLayer.Number.Scaling
import MetricLayer.Number.Shortest
import MetricLayer.Outcome.Basic
import MetricLayer.Outcome.Draft
import MetricLayer.Plan.Basic
import MetricLayer.Plan.FieldSet
import MetricLayer.Plan.Filtering
import MetricLayer.Plan.MeasureNode
import MetricLayer.Plan.Predicate
import MetricLayer.Plan.Review
import MetricLayer.Proofs.Digraph.Circuit
import MetricLayer.Proofs.Digraph.Components
import MetricLayer.Proofs.Digraph.CyclicComponents
import MetricLayer.Proofs.Digraph.Order
import MetricLayer.Proofs.Digraph.Reach
import MetricLayer.Proofs.Digraph.WayBack
import MetricLayer.Proofs.Expression.Calls
import MetricLayer.Proofs.Expression.Operators
import MetricLayer.Proofs.Expression.Scanning
import MetricLayer.Proofs.Expression.StringLiteral
import MetricLayer.Proofs.Expression.Written
import MetricLayer.Proofs.Json.Reading
import MetricLayer.Proofs.Json.Unambiguous
import MetricLayer.Proofs.Json.Writing
import MetricLayer.Proofs.Measure.Additivity
import MetricLayer.Proofs.Measure.Afresh
import MetricLayer.Proofs.Measure.Cycle
import MetricLayer.Proofs.Measure.Dependency
import MetricLayer.Proofs.Measure.DistinctCounts
import MetricLayer.Proofs.Measure.Growth
import MetricLayer.Proofs.Measure.History
import MetricLayer.Proofs.Measure.Inference
import MetricLayer.Proofs.Measure.Placeholders
import MetricLayer.Proofs.Measure.References
import MetricLayer.Proofs.Measure.Search
import MetricLayer.Proofs.Measure.Sharing
import MetricLayer.Proofs.Measure.Trees
import MetricLayer.Proofs.Measure.Typing
import MetricLayer.Proofs.Number.Grammar
import MetricLayer.Proofs.Number.Range
import MetricLayer.Proofs.Number.Rounding
import MetricLayer.Proofs.Number.Spelling
import MetricLayer.Proofs.Outcome.Accounting
import MetricLayer.Proofs.Outcome.Agreement
import MetricLayer.Proofs.Outcome.Ending
import MetricLayer.Proofs.Outcome.MeasureFilters
import MetricLayer.Proofs.Outcome.NonFinite
import MetricLayer.Proofs.Outcome.Operands
import MetricLayer.Proofs.Outcome.Order
import MetricLayer.Proofs.Outcome.OwnFields
import MetricLayer.Proofs.Outcome.Parts
import MetricLayer.Proofs.Outcome.Reexported
import MetricLayer.Proofs.Outcome.RequiredFields
import MetricLayer.Proofs.Outcome.Severity
import MetricLayer.Proofs.Outcome.Stale
import MetricLayer.Proofs.Outcome.Visibility
import MetricLayer.Proofs.Plan.Ambiguity
import MetricLayer.Proofs.Plan.Verdict
import MetricLayer.Proofs.Reference.Composition
import MetricLayer.Proofs.Reference.Ends
import MetricLayer.Proofs.Reference.Following
import MetricLayer.Proofs.Reference.HopCount
import MetricLayer.Proofs.Reference.Locality
import MetricLayer.Proofs.Reference.Nesting
import MetricLayer.Proofs.Reference.Obstacle
import MetricLayer.Proofs.Reference.Reexport
import MetricLayer.Proofs.Reference.Roots
import MetricLayer.Proofs.Reference.Transparency
import MetricLayer.Proofs.Reference.Walk
import MetricLayer.Proofs.Registry.Building
import MetricLayer.Proofs.Registry.Fingerprint
import MetricLayer.Proofs.Registry.Growth
import MetricLayer.Proofs.Registry.IncludeCycles
import MetricLayer.Proofs.Registry.Index
import MetricLayer.Proofs.Registry.Lookup
import MetricLayer.Proofs.Registry.Order
import MetricLayer.Proofs.Schema.Decoding
import MetricLayer.Proofs.Schema.RoundTrip
import MetricLayer.Proofs.Text.Blank
import MetricLayer.Proofs.Text.ByteOrder
import MetricLayer.Proofs.Text.Segments
import MetricLayer.Reference.Basic
import MetricLayer.Reference.Resolve
import MetricLayer.Registry.Basic
import MetricLayer.Registry.Builder
import MetricLayer.Registry.Fingerprint
import MetricLayer.Registry.IncludeGraph
import MetricLayer.Registry.Store
import MetricLayer.Schema.Building
import MetricLayer.Schema.Decode
import MetricLayer.Schema.Encode
import MetricLayer.Schema.Entity
import MetricLayer.Schema.Filter
import MetricLayer.Schema.Kind
import MetricLayer.Schema.Literal
import MetricLayer.Settings.Basic
import MetricLayer.Settings.Document
import MetricLayer.Text.Blank
import MetricLayer.Text.Path
import MetricLayer.Toml.Basic
import MetricLayer.Toml.Reader
import MetricLayer.Toml.Scalar
