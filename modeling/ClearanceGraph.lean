import ClearanceGraph.Clearance.Closure
import ClearanceGraph.Clearance.Front
import ClearanceGraph.Clearance.Json
import ClearanceGraph.Clearance.Level
import ClearanceGraph.Clearance.Pass
import ClearanceGraph.Clearance.Profile
import ClearanceGraph.Clearance.Region
import ClearanceGraph.Clearance.Rule
import ClearanceGraph.Clearance.Settle
import ClearanceGraph.Clearance.Spread
import ClearanceGraph.Clearance.Survey
import ClearanceGraph.Clearance.View
import ClearanceGraph.Config.Basic
import ClearanceGraph.Config.Json
import ClearanceGraph.Config.Settings
import ClearanceGraph.Decimal.Double
import ClearanceGraph.Decimal.Reading
import ClearanceGraph.Decimal.Shortest
import ClearanceGraph.Digest.Blake3
import ClearanceGraph.Digest.Sha1
import ClearanceGraph.Digest.Uuid
import ClearanceGraph.Engine.Barrier
import ClearanceGraph.Engine.Basic
import ClearanceGraph.Engine.Recalculation
import ClearanceGraph.Engine.Recovery
import ClearanceGraph.Error.Basic
import ClearanceGraph.Error.Validation
import ClearanceGraph.Event.Batch
import ClearanceGraph.Event.Json
import ClearanceGraph.Event.Message
import ClearanceGraph.Event.Outbox
import ClearanceGraph.Event.Publisher
import ClearanceGraph.Graph.Content
import ClearanceGraph.Graph.Fact
import ClearanceGraph.Graph.Json
import ClearanceGraph.Graph.Naming
import ClearanceGraph.Graph.Reference
import ClearanceGraph.Json.Basic
import ClearanceGraph.Json.Decode
import ClearanceGraph.Json.Parser
import ClearanceGraph.Json.Printer
import ClearanceGraph.Order.Choice
import ClearanceGraph.Order.Table
import ClearanceGraph.Origin.Basic
import ClearanceGraph.Origin.Ledger
import ClearanceGraph.Origin.Plan
import ClearanceGraph.Origin.Reconcile
import ClearanceGraph.Origin.Run
import ClearanceGraph.Proofs.Action
import ClearanceGraph.Proofs.Attempts
import ClearanceGraph.Proofs.Clearance.Arrival
import ClearanceGraph.Proofs.Clearance.Checkpoints
import ClearanceGraph.Proofs.Clearance.Closure
import ClearanceGraph.Proofs.Clearance.Course
import ClearanceGraph.Proofs.Clearance.Deltas
import ClearanceGraph.Proofs.Clearance.Due
import ClearanceGraph.Proofs.Clearance.Facts
import ClearanceGraph.Proofs.Clearance.Flow
import ClearanceGraph.Proofs.Clearance.Front
import ClearanceGraph.Proofs.Clearance.FullPass
import ClearanceGraph.Proofs.Clearance.Incremental
import ClearanceGraph.Proofs.Clearance.Json
import ClearanceGraph.Proofs.Clearance.LaterTimes
import ClearanceGraph.Proofs.Clearance.Load
import ClearanceGraph.Proofs.Clearance.Locality
import ClearanceGraph.Proofs.Clearance.Lookups
import ClearanceGraph.Proofs.Clearance.Mirror
import ClearanceGraph.Proofs.Clearance.Monotone
import ClearanceGraph.Proofs.Clearance.Notes
import ClearanceGraph.Proofs.Clearance.Pass
import ClearanceGraph.Proofs.Clearance.Reach
import ClearanceGraph.Proofs.Clearance.Region
import ClearanceGraph.Proofs.Clearance.Resumption
import ClearanceGraph.Proofs.Clearance.Shape
import ClearanceGraph.Proofs.Clearance.Snapshot
import ClearanceGraph.Proofs.Clearance.Summary
import ClearanceGraph.Proofs.Clearance.Telling
import ClearanceGraph.Proofs.Clearance.Trail
import ClearanceGraph.Proofs.Clearance.Turns
import ClearanceGraph.Proofs.Clearance.Walk
import ClearanceGraph.Proofs.Clearance.Worklist
import ClearanceGraph.Proofs.Comparison
import ClearanceGraph.Proofs.Conduct
import ClearanceGraph.Proofs.Contents
import ClearanceGraph.Proofs.Digest.Uuid
import ClearanceGraph.Proofs.Effects
import ClearanceGraph.Proofs.Engine.Aftermath
import ClearanceGraph.Proofs.Engine.Barrier
import ClearanceGraph.Proofs.Engine.Conduct
import ClearanceGraph.Proofs.Engine.Deed
import ClearanceGraph.Proofs.Engine.Flush
import ClearanceGraph.Proofs.Engine.Influence
import ClearanceGraph.Proofs.Engine.Interruption
import ClearanceGraph.Proofs.Engine.Invariant
import ClearanceGraph.Proofs.Engine.Parking
import ClearanceGraph.Proofs.Engine.Rebuilding
import ClearanceGraph.Proofs.Engine.Recalculation
import ClearanceGraph.Proofs.Engine.Recovery
import ClearanceGraph.Proofs.Engine.Regularity
import ClearanceGraph.Proofs.Engine.Reporting
import ClearanceGraph.Proofs.Engine.Stranding
import ClearanceGraph.Proofs.Engine.Watermark
import ClearanceGraph.Proofs.Event.Delivery
import ClearanceGraph.Proofs.Event.Identity
import ClearanceGraph.Proofs.Event.Json
import ClearanceGraph.Proofs.Event.Outbox
import ClearanceGraph.Proofs.Event.Publisher
import ClearanceGraph.Proofs.Event.Wire
import ClearanceGraph.Proofs.Evolution
import ClearanceGraph.Proofs.Faults
import ClearanceGraph.Proofs.Graph.Agreement
import ClearanceGraph.Proofs.Graph.Display
import ClearanceGraph.Proofs.Graph.Json
import ClearanceGraph.Proofs.Graph.Naming
import ClearanceGraph.Proofs.Json.Basic
import ClearanceGraph.Proofs.Json.Canonical
import ClearanceGraph.Proofs.Json.Record
import ClearanceGraph.Proofs.Json.Text
import ClearanceGraph.Proofs.Order.Choice
import ClearanceGraph.Proofs.Order.Table
import ClearanceGraph.Proofs.Origin.Backdated
import ClearanceGraph.Proofs.Origin.Call
import ClearanceGraph.Proofs.Origin.Difference
import ClearanceGraph.Proofs.Origin.Exactness
import ClearanceGraph.Proofs.Origin.Guarantee
import ClearanceGraph.Proofs.Origin.Guard
import ClearanceGraph.Proofs.Origin.Holdings
import ClearanceGraph.Proofs.Origin.Ledger
import ClearanceGraph.Proofs.Origin.Naming
import ClearanceGraph.Proofs.Origin.Orphans
import ClearanceGraph.Proofs.Origin.Owners
import ClearanceGraph.Proofs.Origin.Ownership
import ClearanceGraph.Proofs.Origin.Parts
import ClearanceGraph.Proofs.Origin.Plan
import ClearanceGraph.Proofs.Origin.Protection
import ClearanceGraph.Proofs.Origin.Refusal
import ClearanceGraph.Proofs.Origin.Repetition
import ClearanceGraph.Proofs.Origin.Sight
import ClearanceGraph.Proofs.Origin.SoleWriter
import ClearanceGraph.Proofs.Origin.Validation
import ClearanceGraph.Proofs.Origin.Writes
import ClearanceGraph.Proofs.Retry
import ClearanceGraph.Proofs.Rivals
import ClearanceGraph.Proofs.Steadiness
import ClearanceGraph.Proofs.Store.Around
import ClearanceGraph.Proofs.Store.Commit
import ClearanceGraph.Proofs.Store.Filing
import ClearanceGraph.Proofs.Store.Growth
import ClearanceGraph.Proofs.Store.History
import ClearanceGraph.Proofs.Store.Json
import ClearanceGraph.Proofs.Store.Likeness
import ClearanceGraph.Proofs.Store.Log
import ClearanceGraph.Proofs.Store.Query
import ClearanceGraph.Proofs.Store.Reading
import ClearanceGraph.Proofs.Store.Timeline
import ClearanceGraph.Proofs.Text.Numeral
import ClearanceGraph.Proofs.Time.Order
import ClearanceGraph.Proofs.Time.Text
import ClearanceGraph.Proofs.World
import ClearanceGraph.Retry
import ClearanceGraph.Store.Basic
import ClearanceGraph.Store.Document
import ClearanceGraph.Store.Json
import ClearanceGraph.Store.Key
import ClearanceGraph.Store.Query
import ClearanceGraph.Store.Reading
import ClearanceGraph.Text.Blank
import ClearanceGraph.Text.Numeral
import ClearanceGraph.Time.Calendar
import ClearanceGraph.Time.Instant
import ClearanceGraph.Time.Interval
import ClearanceGraph.Time.Text
import ClearanceGraph.World
