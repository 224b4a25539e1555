import KsSql.Util.Bytes
import KsSql.Util.LittleEndian
import KsSql.Util.WireFormat
import KsSql.Util.Crc32
import KsSql.Util.BinarySearch
import KsSql.Util.SortedAssoc
import KsSql.Util.PageProgram
import KsSql.Util.Mailbox
import KsSql.Storage.Node
import KsSql.Storage.NodeCodec
import KsSql.Util.HashMap
import KsSql.Util.Text
import KsSql.Util.Trimming
import KsSql.Storage.MemoryTier
import KsSql.Storage.Eviction
import KsSql.Storage.Wal
import KsSql.Storage.WalRecovery
import KsSql.Storage.RecoveryLoop
import KsSql.Storage.Batches
import KsSql.Storage.WalSteps
import KsSql.Storage.BTree
import KsSql.Storage.PageFile
import KsSql.Storage.PageAllocation
import KsSql.Storage.Routines
import KsSql.Storage.Soundness
import KsSql.Storage.LeafWalk
import KsSql.Storage.Frame
import KsSql.Storage.PagerThread
import KsSql.Storage.PagerRefinement
import KsSql.Storage.Contents
import KsSql.Storage.TreeView
import KsSql.Storage.TreeGrowth
import KsSql.Storage.SearchTree
import KsSql.Storage.TreeRun
import KsSql.Storage.TreeCalls
import KsSql.Storage.QuarterPage
import KsSql.Storage.ChainOrder
import KsSql.Storage.MapRefinement
import KsSql.Util.PageTrace
import KsSql.Util.Race
import KsSql.Storage.QuietInsert
import KsSql.Storage.Truncation
import KsSql.Storage.CrashSafety
import KsSql.Storage.PageReplay
import KsSql.Storage.TornWrites
import KsSql.Storage.FlushRace
import KsSql.Storage.OpenRace
import KsSql.Storage.ChainSteps
import KsSql.Storage.ReaderRace
import KsSql.Storage.ThreadReads
import KsSql.Util.Effect
import KsSql.Util.FirstHits
import KsSql.Parser.Ast
import KsSql.Parser.Record
import KsSql.Parser.Engine
import KsSql.Parser.System
import KsSql.Parser.Reading
import KsSql.Parser.Progress
import KsSql.Parser.Coherence
import KsSql.Parser.Handlers
import KsSql.Parser.Runs
import KsSql.Parser.PlainRuntime
import KsSql.Parser.ScanRefinement
import KsSql.Parser.LiveRows
import KsSql.Parser.Dispatch
import KsSql.Parser.Scans
import KsSql.Parser.Rows
import KsSql.Parser.Selects
import KsSql.Util.Trail
import KsSql.Parser.Walks
import KsSql.Util.Decimal
import KsSql.Parser.Conditions
import KsSql.Parser.Literals
import KsSql.Util.Filters
import KsSql.Util.Terminated
import KsSql.Parser.TableQueries
import KsSql.Parser.Script
import KsSql.Parser.FileScans
import KsSql.Parser.Searches
import KsSql.Parser.OpenTransactions
import KsSql.Parser.Uncommitted
import KsSql.Parser.Pipeline
import KsSql.Parser.Stores
import KsSql.Parser.VersionClock
import KsSql.Parser.Restart
import KsSql.Parser.CommitErrors
import KsSql.Parser.TimeMachine
import KsSql.Parser.CommitWindow
import KsSql.Parser.ConcurrentCommits
import KsSql.Parser.Writes
import KsSql.Parser.Insertions
import KsSql.Parser.Isolation
import KsSql.Parser.FirstCommitter
import KsSql.Parser.UndoRedo
import KsSql.Parser.UndoRace
import KsSql.Parser.Joins
import KsSql.Parser.Tables
import KsSql.Parser.Sessions
import KsSql.Parser.TableViews
import KsSql.Parser.TableChanges
import KsSql.Parser.TableStatements
import KsSql.Parser.TableRuns
import KsSql.Parser.SnapshotReads
import KsSql.Parser.LoneTransactions
import KsSql.Parser.Updates
import KsSql.Parser.GeneratedIds
import KsSql.Parser.Reopening
import KsSql.Parser.Catalogue
import KsSql.Network.Hotswap
import KsSql.Network.Server
import KsSql.Network.Transactions
import KsSql.Network.Eavesdropping
import KsSql.Network.Connection
import KsSql.Network.Responses
import KsSql.Storage.WritersRace
