import JsonLine.Bytes
import JsonLine.Text.Escape
import JsonLine.Pool.Options
import JsonLine.Text.Decimal
import JsonLine.Float.Binary
import JsonLine.Float.Shortest
import JsonLine.Float.Notation
import JsonLine.Float.Round
import JsonLine.Pool.Metrics
import JsonLine.Time.Moment
import JsonLine.Time.DateTime
import JsonLine.Text.Utf8
import JsonLine.Text.Lexical
import JsonLine.Value.Basic
import JsonLine.Value.Display
import JsonLine.Line.Basic
import JsonLine.Compose
import JsonLine.LogMap
import JsonLine.Platform.FieldMap
import JsonLine.Platform.Doc.Failure
import JsonLine.Platform.Doc
import JsonLine.Platform.Doc.Read
import JsonLine.Platform.Calendar
import JsonLine.Pool.Basic
import JsonLine.Pool.Store
import JsonLine.Desk
import JsonLine.Showcase
import JsonLine.Main
import JsonLine.Proofs.Delivery
import JsonLine.Proofs.Interleaving
import JsonLine.Proofs.Text
import JsonLine.Proofs.Padding
import JsonLine.Proofs.Reference
import JsonLine.Proofs.Json.Grammar
import JsonLine.Proofs.Json.Numbers
import JsonLine.Proofs.Json.Strings
import JsonLine.Proofs.Json.Whole
import JsonLine.Proofs.Json.RoundTrip
import JsonLine.Proofs.Composition
import JsonLine.Proofs.LockDiscipline
import JsonLine.Proofs.PoolAccounting
import JsonLine.Proofs.PlainText
import JsonLine.Proofs.EscapeRuns
import JsonLine.Proofs.EscapedText
import JsonLine.Proofs.FailingOutput
import JsonLine.Proofs.FieldOrder
import JsonLine.Proofs.SortedKeys
import JsonLine.Proofs.ShortestDigits
import JsonLine.Proofs.Headroom
import JsonLine.Proofs.Rounding
import JsonLine.Proofs.HitRate
