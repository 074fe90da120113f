import ReproMPI.Bench.CollectiveBuffers
import ReproMPI.Bench.InputRecords
import ReproMPI.Bench.JobBroadcast
import ReproMPI.Bench.JobInput
import ReproMPI.Bench.JobList
import ReproMPI.Bench.LibParams
import ReproMPI.Bench.MeasurementLoop
import ReproMPI.Bench.MessageSizeList
import ReproMPI.Bench.MessageSizes
import ReproMPI.Bench.PingpongCollectives
import ReproMPI.Bench.Runtimes
import ReproMPI.Bench.TimestampBounds
import ReproMPI.Bench.TimingOptions
import ReproMPI.Benchmaker.OutputFile
import ReproMPI.Clocks.BaseClockSync
import ReproMPI.Clocks.ClockPropagation
import ReproMPI.Clocks.ClockSyncLoader
import ReproMPI.Clocks.Communicators
import ReproMPI.Clocks.GlobalClock
import ReproMPI.Clocks.HCA
import ReproMPI.Clocks.HCA3
import ReproMPI.Clocks.HCAOperations
import ReproMPI.Clocks.HCASync
import ReproMPI.Clocks.HCATree
import ReproMPI.Clocks.HierarchicalSync
import ReproMPI.Clocks.JKSync
import ReproMPI.Clocks.LearnModel
import ReproMPI.Clocks.LinModel
import ReproMPI.Clocks.PingPong
import ReproMPI.Clocks.PingPongRuns
import ReproMPI.Clocks.PingPongSides
import ReproMPI.Clocks.PingpongOffset
import ReproMPI.Clocks.PropagationSync
import ReproMPI.Clocks.RankPairCache
import ReproMPI.Clocks.RoundTrip
import ReproMPI.Clocks.SKaMPISync
import ReproMPI.Clocks.TopoAware
import ReproMPI.Clocks.TreeSync
import ReproMPI.Lib.ArrayFill
import ReproMPI.Lib.BatchedArray
import ReproMPI.Lib.ByteBuffer
import ReproMPI.Lib.CInt
import ReproMPI.Lib.CString
import ReproMPI.Lib.Chaining
import ReproMPI.Lib.Collective
import ReproMPI.Lib.Communicator
import ReproMPI.Lib.Destutter
import ReproMPI.Lib.FallibleLoop
import ReproMPI.Lib.Fifo
import ReproMPI.Lib.GroupAlgorithm
import ReproMPI.Lib.GroupOps
import ReproMPI.Lib.GroupTally
import ReproMPI.Lib.InPlaceFilter
import ReproMPI.Lib.LeastSquares
import ReproMPI.Lib.LineBuffer
import ReproMPI.Lib.Memo
import ReproMPI.Lib.PairCount
import ReproMPI.Lib.Rendezvous
import ReproMPI.Lib.Requests
import ReproMPI.Lib.Rounds
import ReproMPI.Lib.SegmentFold
import ReproMPI.Lib.Sessions
import ReproMPI.Lib.Strtok
import ReproMPI.Lib.TextLines
import ReproMPI.Lib.TimedFifo
import ReproMPI.Output.LibrarySummary
import ReproMPI.Output.ResultsFile
import ReproMPI.Output.Summary
import ReproMPI.Output.VerboseResults
import ReproMPI.Pgcheck.ArgvManager
import ReproMPI.Pgcheck.Checker
import ReproMPI.Pgcheck.ComparerData
import ReproMPI.Pgcheck.ComparerList
import ReproMPI.Pgcheck.Comparers
import ReproMPI.Pgcheck.CountGroups
import ReproMPI.Pgcheck.CsvParser
import ReproMPI.Pgcheck.DataPrinter
import ReproMPI.Pgcheck.DataTable
import ReproMPI.Pgcheck.FastestMockup
import ReproMPI.Pgcheck.GroupedSummary
import ReproMPI.Pgcheck.Input
import ReproMPI.Pgcheck.MannWhitney
import ReproMPI.Pgcheck.MeasuredData
import ReproMPI.Pgcheck.Options
import ReproMPI.Pgcheck.RankSum
import ReproMPI.Pgcheck.ReadBack
import ReproMPI.Pgcheck.Reports
import ReproMPI.Pgcheck.TTest
import ReproMPI.Pgcheck.TableMerge
import ReproMPI.Pgcheck.TablePrinting
import ReproMPI.Pgcheck.TuneInterface
import ReproMPI.Pgcheck.TwoSampleTest
import ReproMPI.Pgcheck.ViolationSummary
import ReproMPI.Pgcheck.ViolationTable
import ReproMPI.SanityCheck.DriftTest
import ReproMPI.SanityCheck.TestProcesses
import ReproMPI.Sync.Allreduce
import ReproMPI.Sync.AllreduceCalls
import ReproMPI.Sync.Bcast
import ReproMPI.Sync.BcastCall
import ReproMPI.Sync.CirculantSchedule
import ReproMPI.Sync.CyclicRanks
import ReproMPI.Sync.DissemBarrier
import ReproMPI.Sync.Lockstep
import ReproMPI.Sync.RoundTimeMode
import ReproMPI.Sync.RoundTimePace
import ReproMPI.Sync.RoundTimeProcess
import ReproMPI.Sync.RoundTimeSync
import ReproMPI.Sync.WindowJob
import ReproMPI.Sync.WindowSync
import ReproMPI.Utils.KeyEnumeration
import ReproMPI.Utils.KeyValueOptions
import ReproMPI.Utils.KeyValueStore
