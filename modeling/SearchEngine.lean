import SearchEngine.Run
import SearchEngine.Library.BubbleSort
import SearchEngine.LinkedList
import SearchEngine.HashTable
import SearchEngine.HTIterator
import SearchEngine.HTIteration
import SearchEngine.Resize
import SearchEngine.Library.Simulation
import SearchEngine.TableLedger
import SearchEngine.TableMap
import SearchEngine.Library.Heap
import SearchEngine.Library.DoublyLinked
import SearchEngine.PointerList
import SearchEngine.ListSequence
import SearchEngine.ListModels
import SearchEngine.NodeOwnership
import SearchEngine.DanglingList
import SearchEngine.DanglingTable
import SearchEngine.RoFile
import SearchEngine.RoFileRefinement
import SearchEngine.MemIndex
import SearchEngine.MemSearch
import SearchEngine.Library.Transition
import SearchEngine.ThreadPool
import SearchEngine.Library.Framing
import SearchEngine.Library.HeaderBlock
import SearchEngine.BoostStrings
import SearchEngine.HttpRequest
import SearchEngine.HttpConnection
import SearchEngine.HttpServer
import SearchEngine.Descriptors
import SearchEngine.FileParser
import SearchEngine.Library.MaxRun
import SearchEngine.WordRuns
import SearchEngine.DocTable
import SearchEngine.DocTableRuns
import SearchEngine.FileTree
import SearchEngine.Library.Sorter
import SearchEngine.CrawlFileTree
import SearchEngine.CrawlCoverage
import SearchEngine.CrawlInvariant
import SearchEngine.CrawlOrder
import SearchEngine.DanglingIndex
import SearchEngine.DanglingWriter
import SearchEngine.DanglingCrawl
import SearchEngine.Library.ByteStrings
import SearchEngine.Library.BigEndian
import SearchEngine.Library.Program
import SearchEngine.Library.ShiftRegister
import SearchEngine.Library.Layout
import SearchEngine.LayoutStructs
import SearchEngine.RequestForm
import SearchEngine.Crc32
import SearchEngine.Library.BitSerial
import SearchEngine.CrcBitwise
import SearchEngine.Stdio
import SearchEngine.WriteIndex
import SearchEngine.IndexLayout
import SearchEngine.WrittenIndex
import SearchEngine.HashTableReader
import SearchEngine.FileIndexReader
import SearchEngine.IndexLookup
import SearchEngine.IndexReading
import SearchEngine.IndexRoundTrip
import SearchEngine.IndexValidation
import SearchEngine.BurstDetection
import SearchEngine.WriteTrace
import SearchEngine.CrashAtomicity
import SearchEngine.CutLengths
import SearchEngine.BufferedStdio
import SearchEngine.WriteFailures
import SearchEngine.RawTables
import SearchEngine.ReaderSafety
import SearchEngine.IndexChecker
import SearchEngine.CheckerAcceptance
import SearchEngine.CheckedIndex
import SearchEngine.StoredElements
import SearchEngine.CheckerSoundness
import SearchEngine.SharedOffset
import SearchEngine.ReaderThreads
import SearchEngine.QueryProcessor
import SearchEngine.QueryAgreement
import SearchEngine.DocIDTableReaders
import SearchEngine.ReaderOwnership
import SearchEngine.LargeIndex
import SearchEngine.CrawledIndex
import SearchEngine.QuerySafety
import SearchEngine.HttpUtils
import SearchEngine.Library.ItemReader
import SearchEngine.HtmlEscaping
import SearchEngine.PercentEncoding
import SearchEngine.Library.Separated
import SearchEngine.FileReader
import SearchEngine.ProcessRequest
import SearchEngine.StaticFiles
import SearchEngine.StaticLinks
import SearchEngine.ServedFiles
import SearchEngine.ResponseFraming
import SearchEngine.WordRuns
import SearchEngine.StableSort
import SearchEngine.WrittenRanges
import SearchEngine.Library.LastBinding
import SearchEngine.Library.Quota
import SearchEngine.Library.Runs
import SearchEngine.TableGrowth
import SearchEngine.ReadSchedules
import SearchEngine.WrappedWrite
import SearchEngine.RankSums
import SearchEngine.UrlArgs
import SearchEngine.FileSearchShell
import SearchEngine.FrontEnds
import SearchEngine.SearchShell
import SearchEngine.QueryResults
import SearchEngine.WordOccurrences
import SearchEngine.BuildFileIndex
import SearchEngine.ShellSessions
import SearchEngine.ResultPage
import SearchEngine.RequestSafety
import SearchEngine.PoolProgress
import SearchEngine.ServedQueries
import SearchEngine.Library.Handles
import SearchEngine.ServerSocket
import SearchEngine.SocketLifetime
import SearchEngine.SocketUtil
import SearchEngine.FileTransfer
import SearchEngine.TableValues
import SearchEngine.Library.OwnedHeap
import SearchEngine.CrawlOwnership
import SearchEngine.CrawlLeaks
import SearchEngine.TextFiles
