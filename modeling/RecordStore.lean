import RecordStore.Engine
import RecordStore.Key.Order
import RecordStore.Proofs.Assoc
import RecordStore.Proofs.Engine.Bindings
import RecordStore.Proofs.Engine.FanOut
import RecordStore.Proofs.Engine.Follows
import RecordStore.Proofs.Engine.Holds
import RecordStore.Proofs.Engine.LateIndexes
import RecordStore.Proofs.Engine.Ledger
import RecordStore.Proofs.Engine.Select
import RecordStore.Proofs.Engine.Session
import RecordStore.Proofs.Engine.Store
import RecordStore.Proofs.Engine.Tracks
import RecordStore.Proofs.Index.Alternatives
import RecordStore.Proofs.Index.Chain
import RecordStore.Proofs.Index.Complete
import RecordStore.Proofs.Index.Layout
import RecordStore.Proofs.Index.Updates
import RecordStore.Proofs.Index.Walk
import RecordStore.Proofs.Index.WellFormed
import RecordStore.Proofs.Json.RoundTrip
import RecordStore.Proofs.Json.Tokens
import RecordStore.Proofs.Key
import RecordStore.Proofs.KeyConstraint
import RecordStore.Proofs.KeyRange
import RecordStore.Proofs.Order
import RecordStore.Proofs.Plan.Alike
import RecordStore.Proofs.Plan.Candidates
import RecordStore.Proofs.Plan.Choose
import RecordStore.Proofs.Plan.Contents
import RecordStore.Proofs.Plan.Scan
import RecordStore.Proofs.Plan.Serves
import RecordStore.Proofs.Plan.Sorted
import RecordStore.Proofs.Simplify
import RecordStore.Proofs.Tree.Balance
import RecordStore.Proofs.Tree.Search
import RecordStore.Proofs.Tree.Size
import RecordStore.Proofs.Window
import RecordStore.Proofs.Engine.Histories
import RecordStore.Proofs.Engine.Removal
import RecordStore.Proofs.Config.RoundTrip
import RecordStore.Proofs.Engine.Account
import RecordStore.Proofs.Engine.Reports
import RecordStore.Proofs.Engine.NoDearer
import RecordStore.Proofs.Engine.PrimaryLookup
import RecordStore.Proofs.Engine.Readable
import RecordStore.Proofs.Engine.Wider
import RecordStore.Proofs.Engine.Work
import RecordStore.Proofs.Index.Preferred
import RecordStore.Proofs.Index.Visits
import RecordStore.Proofs.Plan.Cheapest
import RecordStore.Proofs.Plan.Work
import RecordStore.Proofs.Config.Checks
import RecordStore.Proofs.Engine.Configured
import RecordStore.Proofs.NormalForm
import RecordStore.Proofs.Offers
import RecordStore.Proofs.Sorting
import RecordStore.Proofs.Comparison
import RecordStore.Proofs.Engine.IntegerKeys
import RecordStore.Proofs.Engine.Streams
import RecordStore.Proofs.FloatOrder
import RecordStore.Proofs.Sink
import RecordStore.Proofs.Tree.Rebalance
import RecordStore.Proofs.Engine.Shallow
import RecordStore.Proofs.Engine.EveryIndex
import RecordStore.Proofs.Json.NoControl
import RecordStore.Proofs.Log.Lines
