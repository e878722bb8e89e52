import CloudEtcd.Lib.RadixTree
import CloudEtcd.Lib.Timeline
import CloudEtcd.Lib.GoMap
import CloudEtcd.Lib.Transition
import CloudEtcd.Lib.Cursor
import CloudEtcd.Lib.RWLocks
import CloudEtcd.Lib.History
import CloudEtcd.Persistence.Types
import CloudEtcd.BPTree
import CloudEtcd.BPTree.Calls
import CloudEtcd.Persistence.Batch
import CloudEtcd.Persistence.Validation
import CloudEtcd.Persistence.GroupCommit
import CloudEtcd.Persistence.LogCodec
import CloudEtcd.Persistence.RecordCache
import CloudEtcd.Persistence.CacheHistory
import CloudEtcd.Persistence.CacheList
import CloudEtcd.Persistence.FilesystemLog
import CloudEtcd.Persistence.LogFiles
import CloudEtcd.Persistence.CompactFiles
import CloudEtcd.Persistence.Reopen
import CloudEtcd.Lease
import CloudEtcd.Lease.Table
import CloudEtcd.Lease.Attachments
import CloudEtcd.Storage.Api
import CloudEtcd.Storage.MemoryStorage
import CloudEtcd.Storage.IndexHistory
import CloudEtcd.Storage.SnapshotReads
import CloudEtcd.Storage.Listing
import CloudEtcd.Storage.Evaluation
import CloudEtcd.Storage.Footprint
import CloudEtcd.Storage.Store
import CloudEtcd.Storage.LogInv
import CloudEtcd.Storage.AnyRecords
import CloudEtcd.Storage.Restart
import CloudEtcd.System.Model
import CloudEtcd.System.LogCompaction
import CloudEtcd.System.AnyRequests
import CloudEtcd.System.Invariant
import CloudEtcd.System.Agreement
import CloudEtcd.System.Reads
import CloudEtcd.System.Paging
import CloudEtcd.System.Serializability
import CloudEtcd.System.Metadata
import CloudEtcd.System.Deletes
import CloudEtcd.System.RepeatedWrites
import CloudEtcd.System.Calls
import CloudEtcd.System.Locks
import CloudEtcd.System.OldReads
import CloudEtcd.System.Rewrites
import CloudEtcd.Lease.Lifetime
import CloudEtcd.Lease.Deadlines
import CloudEtcd.Lease.Expiry
import CloudEtcd.Lease.Renewals
import CloudEtcd.Lease.Grants
import CloudEtcd.Lease.Replay
import CloudEtcd.System.LeaseRestart
import CloudEtcd.Watch.Model
import CloudEtcd.Watch.Watcher
import CloudEtcd.Watch.Delivery
import CloudEtcd.Watch.Steps
import CloudEtcd.Watch.InternalKeys
import CloudEtcd.Watch.Compaction
import CloudEtcd.Watch.Progress
import CloudEtcd.Watch.Cancel
import CloudEtcd.Lib.Framing
import CloudEtcd.Lib.Blocks
import CloudEtcd.Persistence.Protowire
import CloudEtcd.Persistence.Scan
import CloudEtcd.Persistence.RoundTrip
import CloudEtcd.Persistence.ScanSafety
import CloudEtcd.Persistence.AliasDecoder
import CloudEtcd.Persistence.Directory
import CloudEtcd.Persistence.FileNames
import CloudEtcd.Persistence.DiskLog
import CloudEtcd.Persistence.DiskRefines
import CloudEtcd.Persistence.DiskCompaction
import CloudEtcd.Persistence.PointReads
import CloudEtcd.Persistence.Mappings
import CloudEtcd.Persistence.Recompaction
import CloudEtcd.Persistence.Reading
import CloudEtcd.Persistence.CacheBudgets
import CloudEtcd.LogSystem.Model
import CloudEtcd.LogSystem.Recovery
import CloudEtcd.LogSystem.Interrupted
import CloudEtcd.LogSystem.Phases
import CloudEtcd.LogSystem.Moves
import CloudEtcd.LogSystem.Invariant
import CloudEtcd.LogSystem.Uploads
import CloudEtcd.LogSystem.Restore
import CloudEtcd.LogSystem.ArchivePlan
import CloudEtcd.LogSystem.Coverage
import CloudEtcd.LogSystem.Lossless
import CloudEtcd.LogSystem.FileIndex
import CloudEtcd.LogSystem.CachedLog
import CloudEtcd.LogSystem.ReadPaths
import CloudEtcd.LogSystem.Durability
import CloudEtcd.LogSystem.RestoreCrash
