import JobConfig.Command.Arguments
import JobConfig.Command.Listing
import JobConfig.Command.Run
import JobConfig.Decimal.Binary64
import JobConfig.Decimal.Shortest
import JobConfig.Diff.Compact
import JobConfig.Diff.Edit
import JobConfig.Diff.Myers
import JobConfig.Diff.Unified
import JobConfig.Document.Datum
import JobConfig.Document.Fault
import JobConfig.Document.Scalar
import JobConfig.Failure
import JobConfig.Gzip.Deflate
import JobConfig.Gzip.Member
import JobConfig.Identity
import JobConfig.Job.Basic
import JobConfig.Job.Pod
import JobConfig.Job.Set
import JobConfig.KeyMap
import JobConfig.Kind
import JobConfig.Label
import JobConfig.Load
import JobConfig.Main
import JobConfig.Path
import JobConfig.Plan
import JobConfig.Preview
import JobConfig.Proofs.Canonical
import JobConfig.Proofs.Completion
import JobConfig.Proofs.Delivery
import JobConfig.Proofs.Destination
import JobConfig.Proofs.Distinct
import JobConfig.Proofs.DryRun
import JobConfig.Proofs.Failures
import JobConfig.Proofs.FileName
import JobConfig.Proofs.Frame
import JobConfig.Proofs.Fresh
import JobConfig.Proofs.Generated
import JobConfig.Proofs.Grammar
import JobConfig.Proofs.Grouping
import JobConfig.Proofs.HandAuthored
import JobConfig.Proofs.Idempotent
import JobConfig.Proofs.Identity
import JobConfig.Proofs.KeyMap
import JobConfig.Proofs.Label
import JobConfig.Proofs.Labelled
import JobConfig.Proofs.Linked
import JobConfig.Proofs.Lists
import JobConfig.Proofs.Local
import JobConfig.Proofs.Merge
import JobConfig.Proofs.Merged
import JobConfig.Proofs.Moved
import JobConfig.Proofs.Named
import JobConfig.Proofs.Namesakes
import JobConfig.Proofs.Order
import JobConfig.Proofs.Outcome
import JobConfig.Proofs.Parallel
import JobConfig.Proofs.Partition
import JobConfig.Proofs.Path
import JobConfig.Proofs.Plan
import JobConfig.Proofs.Pool
import JobConfig.Proofs.Preview
import JobConfig.Proofs.Pruned
import JobConfig.Proofs.Reconcile
import JobConfig.Proofs.Regenerated
import JobConfig.Proofs.Repeat
import JobConfig.Proofs.Run
import JobConfig.Proofs.Scan
import JobConfig.Proofs.Schema.Reading
import JobConfig.Proofs.Schema.Records
import JobConfig.Proofs.Schema.Respelling
import JobConfig.Proofs.Schema.Results
import JobConfig.Proofs.Schema.RoundTrip
import JobConfig.Proofs.Schema.Table
import JobConfig.Proofs.Schema.Unknown
import JobConfig.Proofs.Schema.Values
import JobConfig.Proofs.Schema.Writing
import JobConfig.Proofs.Separate
import JobConfig.Proofs.Shard
import JobConfig.Proofs.Sharding
import JobConfig.Proofs.Shown
import JobConfig.Proofs.StableSort
import JobConfig.Proofs.Storage
import JobConfig.Proofs.Tree.Basic
import JobConfig.Proofs.Tree.Inside
import JobConfig.Proofs.Tree.Links
import JobConfig.Proofs.Tree.Operations
import JobConfig.Proofs.Tree.Parents
import JobConfig.Proofs.Tree.Resolve
import JobConfig.Proofs.Tree.Storage
import JobConfig.Proofs.Tree.Ways
import JobConfig.Proofs.Unloadable
import JobConfig.Proofs.Utf8
import JobConfig.Proofs.Visits
import JobConfig.Proofs.Walk
import JobConfig.Proofs.WellFormed
import JobConfig.Proofs.Write
import JobConfig.Reconcile.Merge
import JobConfig.Reconcile.Prune
import JobConfig.Reconcile.Sort
import JobConfig.Scan
import JobConfig.Scan.Parallel
import JobConfig.Scan.Pool
import JobConfig.Schema.Draft
import JobConfig.Schema.Record
import JobConfig.Schema.ToValue
import JobConfig.Shard
import JobConfig.StableSort
import JobConfig.Text.Quoted
import JobConfig.Text.Unshown
import JobConfig.Text.Utf8
import JobConfig.Tree.Basic
import JobConfig.Tree.Operations
import JobConfig.Tree.Resolve
import JobConfig.Tree.Storage
import JobConfig.Value
import JobConfig.Write
import JobConfig.Yaml.Character
import JobConfig.Yaml.Cursor
import JobConfig.Yaml.Event
import JobConfig.Yaml.Node
import JobConfig.Yaml.Presentation
import JobConfig.Yaml.Printer
import JobConfig.Yaml.Reader
import JobConfig.Yaml.Token.Basic
import JobConfig.Yaml.Token.Scalar
import JobConfig.Yaml.Token.Stream
import JobConfig.Yaml.Token.Tag
