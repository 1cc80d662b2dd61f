import PgAm.Machine
import PgAm.Action
import PgAm.Types
import PgAm.WalRecord
import PgAm.WalSegment
import PgAm.WalReader
import PgAm.WalWriter
import PgAm.WalSystem
import PgAm.TxnOutcome
import PgAm.TxnRecovery
import PgAm.BufferPool
import PgAm.Threads
import PgAm.PoolInvariant
import PgAm.PoolSafety
import PgAm.PoolLatch
import PgAm.WriteAhead
import PgAm.Checkpoint
import PgAm.CheckpointSafe
import PgAm.PoolFlags
import PgAm.FullPageImage
import PgAm.BtreePage
import PgAm.SnapshotIsolation
import PgAm.TxnManager
import PgAm.HeapSystem
import PgAm.RowLock
import PgAm.HeapScan
import PgAm.VersionChain
import PgAm.HeapHistory
import PgAm.HeapVersions
import PgAm.HeapOnce
import PgAm.EngineIndex
import PgAm.EngineInvariant
import PgAm.EngineRuns
import PgAm.IndexAgreement
import PgAm.EngineLog
import PgAm.EngineRecovery
import PgAm.EngineReplay
import PgAm.EngineServer
import PgAm.EngineOpen
import PgAm.EngineRedo
import PgAm.LoserEntries
import PgAm.BtreeSpace
import PgAm.WalBytes
import PgAm.WalTail
import PgAm.WalCrash
import PgAm.WalResume
import PgAm.WalSync
import PgAm.WalPower
import PgAm.EventLog
import PgAm.PageAllocator
import PgAm.PageCalls
import PgAm.PageReuse
import PgAm.FreelistExact
import PgAm.ActiveXids
import PgAm.HeapRows
import PgAm.IndexUndo
import PgAm.IndexRollback
import PgAm.IndexBuild
import PgAm.IndexGhost
import PgAm.IndexRegister
import PgAm.IndexCatalog
import PgAm.LockEntry
import PgAm.LockManager
import PgAm.LockInvariant
import PgAm.LockOrder
import PgAm.WaitGraph
import PgAm.Deadlock
import PgAm.DeadlockCycle
import PgAm.ClogFile
import PgAm.ClogBuffer
import PgAm.ClogSweep
import PgAm.ClogInvariant
import PgAm.ClogRefines
import PgAm.WalHop
import PgAm.WalReadBack
import PgAm.Checksum
import PgAm.WalDamage
import PgAm.SuperblockCrash
import PgAm.SuperblockSafe
import PgAm.PoolNewPage
import PgAm.PageReissue
import PgAm.FlushDurable
import PgAm.WalRecycle
import PgAm.SnapshotFiles
import PgAm.CheckpointCleanup
import PgAm.IndexKey
import PgAm.CommandVisibility
import PgAm.CycleSearch
import PgAm.RowWait
import PgAm.DeadTuples
import PgAm.SlottedPage
import PgAm.IncompleteSplits
import PgAm.TokenReader
import PgAm.Sql
