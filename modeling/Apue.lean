import Apue.Abort
import Apue.Appending
import Apue.Barrier
import Apue.BarrierInvariant
import Apue.BarrierMerge
import Apue.BarrierRounds
import Apue.BitAlign
import Apue.Bitops
import Apue.Buffers
import Apue.ByteFiles
import Apue.Completion
import Apue.Connecting
import Apue.DbAlone
import Apue.DbClients
import Apue.DbCrash
import Apue.DbCursor
import Apue.DbDeadlock
import Apue.DbDelete
import Apue.DbEvents
import Apue.DbFailure
import Apue.DbFind
import Apue.DbFull
import Apue.DbInvariant
import Apue.DbLists
import Apue.DbLocks
import Apue.DbMachine
import Apue.DbMemory
import Apue.DbModel
import Apue.DbOutline
import Apue.DbReadBack
import Apue.DbReader
import Apue.DbReads
import Apue.DbRecords
import Apue.DbReopen
import Apue.DbResting
import Apue.DbReuse
import Apue.DbRules
import Apue.DbRuns
import Apue.DbScan
import Apue.DbSession
import Apue.DbSettled
import Apue.DbSpec
import Apue.DbSteps
import Apue.DbStore
import Apue.DbStoring
import Apue.DbUpdates
import Apue.DbWrites
import Apue.Decimal
import Apue.Descriptors
import Apue.DevZero
import Apue.DoublyLinked
import Apue.Dup2Model
import Apue.Dup2Tables
import Apue.FooChains
import Apue.FooDeadlock
import Apue.FooInvariant
import Apue.FooModel
import Apue.FooSafe
import Apue.FooSteps
import Apue.Formats
import Apue.Ftw
import Apue.FtwPreorder
import Apue.FtwTree
import Apue.Getenv
import Apue.HerdLookups
import Apue.HerdPool
import Apue.HerdRuns
import Apue.Ipp
import Apue.Loops
import Apue.LowBits
import Apue.MemStream
import Apue.MemStreamFile
import Apue.MemStreamRuns
import Apue.MemStreamSeek
import Apue.MonitorWakeups
import Apue.Monitors
import Apue.MsgQueue
import Apue.OpenArgv
import Apue.OpenClients
import Apue.OpenPairs
import Apue.OpenPoll
import Apue.OpenReply
import Apue.OpenRequest
import Apue.OpenSelect
import Apue.Ownership
import Apue.ParallelSort
import Apue.Pointers
import Apue.PoolInvariant
import Apue.PoolModel
import Apue.PoolQueue
import Apue.PoolShutdown
import Apue.PoolWakeup
import Apue.PopenChild
import Apue.PopenFailure
import Apue.PopenModel
import Apue.PopenRuns
import Apue.PopenStreams
import Apue.PrintAccept
import Apue.PrintClient
import Apue.PrintConfig
import Apue.PrintDaemon
import Apue.PrintDetect
import Apue.PrintJobs
import Apue.PrintModel
import Apue.PrintNumbers
import Apue.PrintPending
import Apue.PrintQueue
import Apue.PrintSpool
import Apue.PrintTransfer
import Apue.PrintWorkers
import Apue.PrinterEnds
import Apue.PrinterLooks
import Apue.PrinterLoops
import Apue.PrinterReceived
import Apue.PrinterReply
import Apue.PrinterRequest
import Apue.PrinterScan
import Apue.PrinterStatus
import Apue.PrinterWatch
import Apue.PrinterWithin
import Apue.Programs
import Apue.RotBlocks
import Apue.RotModel
import Apue.RotRuns
import Apue.RwlockAgree
import Apue.RwlockQueue
import Apue.SemInvariant
import Apue.SemModel
import Apue.SemOps
import Apue.SemRuns
import Apue.SemSteps
import Apue.SignalLogic
import Apue.Signals
import Apue.SingleDaemon
import Apue.Sleep
import Apue.SortedRuns
import Apue.Strtok
import Apue.SystemCall
import Apue.TellHang
import Apue.TellTurns
import Apue.TellWait
import Apue.Threads
import Apue.TransferLoops
import Apue.Transfers
import Apue.Words
