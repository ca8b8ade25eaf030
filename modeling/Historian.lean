import Historian.SortedMap
import Historian.Number.Binary64
import Historian.Number.Decimal
import Historian.Sample
import Historian.Capability
import Historian.Failure
import Historian.Window
import Historian.Document
import Historian.Json
import Historian.Calendar
import Historian.Retention
import Historian.Queue.RateMeter
import Historian.Queue.Room
import Historian.Service.StopSignal
import Historian.LogFilter
import Historian.Archive
import Historian.Backend
import Historian.Memory
import Historian.Read.Cursor
import Historian.Read.Merge
import Historian.Read.Delivery
import Historian.Read.Stream
import Historian.Database
import Historian.Database.Rows
import Historian.Database.Edges
import Historian.Database.Streams
import Historian.Database.Changes
import Historian.Queue.WriterSettings
import Historian.Settings
import Historian.Schema
import Historian.Queue.Pool
import Historian.Queue.Rest
import Historian.Queue.Waking
import Historian.Setup
import Historian.Text.Quoted
import Historian.Service.Group
import Historian.Purge
import Historian.Purge.Schedule
import Historian.Purge.Overlap
import Historian.Site
import Historian.Toml.Quoting
import Historian.Toml.Scalar
import Historian.Toml.Tree
import Historian.Toml.Reader
import Historian.Toml.Writer
import Historian.Settings.File
import Historian.Proofs.Read.Bookends
import Historian.Proofs.Read.Changing
import Historian.Proofs.Queue.OnceInOrder
import Historian.Proofs.Settings.Reload
import Historian.Proofs.Purge.PerPoint
import Historian.Proofs.Purge.Retention
import Historian.Proofs.Service.Generations
import Historian.Proofs.Queue.Places
import Historian.Proofs.Queue.Calls
import Historian.Proofs.Queue.Accounting
import Historian.Proofs.Read.BookendShape
import Historian.Proofs.Store.Ledger
import Historian.Proofs.Read.Failing
import Historian.Proofs.Read.FailingReads
import Historian.Proofs.Read.Faults
import Historian.Proofs.Queue.Stopping
import Historian.Proofs.Store.Standing
import Historian.Proofs.Queue.Waking
import Historian.Proofs.Queue.Barrier
import Historian.Proofs.Queue.Outcomes
import Historian.Proofs.Service.Stops
import Historian.Proofs.Read.CursorUse
import Historian.Proofs.Read.StableMerge
import Historian.Proofs.Database.Admission
import Historian.Proofs.Read.Leases
import Historian.Proofs.Read.InTurn
import Historian.Proofs.Purge.Calendar
import Historian.Proofs.Purge.Cutoffs
import Historian.Proofs.Queue.FirstCome
import Historian.Proofs.Store.Ranking
import Historian.Proofs.Read.Lookups
import Historian.Proofs.Read.WideReads
import Historian.Proofs.Purge.FailedRuns
import Historian.Proofs.Purge.SingleFlight
import Historian.Proofs.Queue.FlushCount
import Historian.Proofs.Store.Batches
import Historian.Proofs.Read.ScanCounts
import Historian.Proofs.Read.GreedyMerge
import Historian.Proofs.Service.Endings
import Historian.Proofs.Service.Awaited
import Historian.Proofs.Service.Deadline
import Historian.Proofs.Queue.OpenBatches
import Historian.Proofs.Queue.RateTicks
import Historian.Proofs.Purge.PeriodLengths
import Historian.Proofs.Settings.Usable
