import VeriTxn.AbortBuffer
import VeriTxn.BPlusTree
import VeriTxn.BTreePins
import VeriTxn.Braces
import VeriTxn.BucketCodec
import VeriTxn.BucketTampering
import VeriTxn.Bytes
import VeriTxn.CleanupPins
import VeriTxn.Coder
import VeriTxn.CommitOrder
import VeriTxn.Cursors
import VeriTxn.Decimal
import VeriTxn.DeliveryFlag
import VeriTxn.DepthFirst
import VeriTxn.DlDetect
import VeriTxn.EvictionPolicy
import VeriTxn.FirstOccurrences
import VeriTxn.HashBucket
import VeriTxn.HashChain
import VeriTxn.HashFloor
import VeriTxn.HashNodes
import VeriTxn.InPlace
import VeriTxn.IndexBTEnc
import VeriTxn.IndexBTEncCoherence
import VeriTxn.IndexBTEncStatic
import VeriTxn.IndexBTree
import VeriTxn.IndexBTreeInvariant
import VeriTxn.IndexBTreeRep
import VeriTxn.IndexBTreeRun
import VeriTxn.IndexEnc
import VeriTxn.IndexEncCoherence
import VeriTxn.IndexEncLostUpdate
import VeriTxn.IndexEncThreads
import VeriTxn.IndexMerkle
import VeriTxn.LastNameKeys
import VeriTxn.Latch
import VeriTxn.LatchOwners
import VeriTxn.LeafTampering
import VeriTxn.Leases
import VeriTxn.LinkedLists
import VeriTxn.LoadedKeys
import VeriTxn.LogAllocation
import VeriTxn.LogBuffer
import VeriTxn.LogCodec
import VeriTxn.LogFlush
import VeriTxn.LogRecovery
import VeriTxn.LogServer
import VeriTxn.LogShipping
import VeriTxn.LruCache
import VeriTxn.LruCacheRuns
import VeriTxn.LruLease
import VeriTxn.MemoryVerifier
import VeriTxn.Messages
import VeriTxn.MsgThread
import VeriTxn.MvccHistory
import VeriTxn.MvccRequests
import VeriTxn.MvccRuns
import VeriTxn.MvccSerializability
import VeriTxn.NewOrderInserts
import VeriTxn.NewOrderItems
import VeriTxn.NextTimestamps
import VeriTxn.NoWaitRuns
import VeriTxn.NodeArrays
import VeriTxn.OccLatches
import VeriTxn.OccSerializability
import VeriTxn.OccValidation
import VeriTxn.OrderKeys
import VeriTxn.PageConflicts
import VeriTxn.PartLocks
import VeriTxn.PinCounts
import VeriTxn.RangeScans
import VeriTxn.ReceivedHash
import VeriTxn.RedoLog
import VeriTxn.Ring
import VeriTxn.RoseTree
import VeriTxn.RowCodec
import VeriTxn.RowCounts
import VeriTxn.RowLock
import VeriTxn.RowMvcc
import VeriTxn.RowPages
import VeriTxn.RowPlaces
import VeriTxn.RowSilo
import VeriTxn.RowTictoc
import VeriTxn.RowTs
import VeriTxn.Serial
import VeriTxn.Shifts
import VeriTxn.SiloRuns
import VeriTxn.SiloSerializability
import VeriTxn.StampOrder
import VeriTxn.StockLevel
import VeriTxn.SyncBatches
import VeriTxn.SyncVersion
import VeriTxn.TictocCalls
import VeriTxn.TictocInvariant
import VeriTxn.TictocPhases
import VeriTxn.TictocRuns
import VeriTxn.TictocSerializability
import VeriTxn.TimestampOrder
import VeriTxn.Transition
import VeriTxn.TxnAtomicity
import VeriTxn.TxnCleanup
import VeriTxn.TxnExits
import VeriTxn.Vaccum
import VeriTxn.WaitDie
import VeriTxn.WaitDieRuns
import VeriTxn.WaitDieTables
import VeriTxn.XorFold
import VeriTxn.YcsbPartitions
import VeriTxn.YcsbQuery
