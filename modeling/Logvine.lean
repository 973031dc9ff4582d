import Logvine.Base.AtomicSave
import Logvine.Base.BufferQueue
import Logvine.Base.Bytes
import Logvine.Base.Dict
import Logvine.Base.HeapMerge
import Logvine.Base.Heapq
import Logvine.Base.Json
import Logvine.Base.KWayMerge
import Logvine.Base.LayeredStore
import Logvine.Base.Layers
import Logvine.Base.Lines
import Logvine.Base.LockOrder
import Logvine.Base.NamedFile
import Logvine.Base.Reads
import Logvine.Base.Recency
import Logvine.Base.Runs
import Logvine.Base.Sections
import Logvine.Base.Text
import Logvine.Network.Client
import Logvine.Network.ClientRequests
import Logvine.Network.Connection
import Logvine.Network.Controller
import Logvine.Network.Operations
import Logvine.Network.ReachableKeys
import Logvine.Network.RequestGrammar
import Logvine.Network.ServedCalls
import Logvine.Network.ServedConnection
import Logvine.Network.Service
import Logvine.Network.Streaming
import Logvine.Storage.Accounting
import Logvine.Storage.ActiveSize
import Logvine.Storage.AutoCompaction
import Logvine.Storage.BackgroundReads
import Logvine.Storage.BackgroundWork
import Logvine.Storage.Basic
import Logvine.Storage.Buffers
import Logvine.Storage.Compaction
import Logvine.Storage.CompactionCrash
import Logvine.Storage.CompactionFlag
import Logvine.Storage.CompactionReads
import Logvine.Storage.CompactionRun
import Logvine.Storage.CompactionStops
import Logvine.Storage.Contents
import Logvine.Storage.CrashRecovery
import Logvine.Storage.DamagedTables
import Logvine.Storage.Draining
import Logvine.Storage.Engine
import Logvine.Storage.EngineLocks
import Logvine.Storage.EngineRun
import Logvine.Storage.EngineSteps
import Logvine.Storage.ExactMerge
import Logvine.Storage.FlushOrder
import Logvine.Storage.KeyRanges
import Logvine.Storage.LogCoverage
import Logvine.Storage.LogOrder
import Logvine.Storage.Manifest
import Logvine.Storage.ManifestFile
import Logvine.Storage.MemTable
import Logvine.Storage.MemTableCode
import Logvine.Storage.MemTableProgress
import Logvine.Storage.MemTableSections
import Logvine.Storage.ReadWriteLock
import Logvine.Storage.Reading
import Logvine.Storage.ReadingSteps
import Logvine.Storage.Recovery
import Logvine.Storage.ReplayFlushed
import Logvine.Storage.SSTable
import Logvine.Storage.SSTableManager
import Logvine.Storage.SavedTables
import Logvine.Storage.Sessions
import Logvine.Storage.SortedIteration
import Logvine.Storage.Tables
import Logvine.Storage.ThreadReads
import Logvine.Storage.Threads
import Logvine.Storage.Wal
import Logvine.Storage.WalRecord
import Logvine.Storage.WalTails
import Logvine.Storage.WalTruncation
import Logvine.Storage.WithoutCompaction
import Logvine.Storage.WriteUnderWay
