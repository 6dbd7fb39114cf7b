import Raster.Lib.Machine
import Raster.Lib.MinQueue
import Raster.Lib.Acyclic
import Raster.Util.TimedHeap
import Raster.Parallel.DAG
import Raster.Parallel.CycleSearch
import Raster.Parallel.Schedule
import Raster.Coroutine.Fiber
import Raster.Parallel.Group
import Raster.Event.Event
import Raster.Net.Actor
import Raster.Net.GroupWait
import Raster.Net.Framework
import Raster.Net.View
import Raster.Net.HandOver
import Raster.Net.Wakeup.Invariant
import Raster.Net.Wakeup.Events
import Raster.Net.Wakeup.Fibers
import Raster.Buffer.IOBuf
import Raster.Buffer.Cursor
import Raster.Net.Protocol
import Raster.Protocol.Binary
import Raster.Event.EventLoop
import Raster.Event.Deletion
import Raster.Event.Registration
import Raster.Event.Action
import Raster.Net.Wakeup.Graphs
import Raster.Net.Wakeup.Safety
import Raster.Event.Expiry
import Raster.Concurrency.ThreadPool
import Raster.Lib.Tally
import Raster.Concurrency.Accounting
import Raster.Concurrency.Join
import Raster.Concurrency.Observers
import Raster.Concurrency.Resize
import Raster.Concurrency.IOThreadPool
import Raster.Concurrency.IOThreads
import Raster.Concurrency.IODrain
import Raster.Lib.Sorted
import Raster.Serializer.Serializer
import Raster.Serializer.RoundTrip
import Raster.Lib.Reader
import Raster.Protocol.Proto.Message
import Raster.Protocol.Proto.RpcChannel
import Raster.Protocol.Proto.Processor
import Raster.Protocol.Proto.Frames
import Raster.Protocol.BinarySync
import Raster.Protocol.Proto.Replies
import Raster.Protocol.Proto.SyncChannel
import Raster.Net.ReadUntil
import Raster.Util.Range
import Raster.Net.AsyncClient
import Raster.Protocol.Proto.AsyncClient
import Raster.Protocol.Thrift.AsyncClient
import Raster.Protocol.Thrift.KeepAlive
import Raster.Net.MultiClient
import Raster.Parallel.GroupKeys
import Raster.Parallel.Scheduler
import Raster.Protocol.Proto.CallIds
import Raster.Util.BlockingQueue
import Raster.Event.TimeoutPass
import Raster.Enc.Gbk
import Raster.Enc.GbkToUnicode
import Raster.Framework.Monitor
import Raster.Util.LogSplit
import Raster.Enc.GbkToUtf8
import Raster.Enc.CharProperty
import Raster.Enc.GbkTable
import Raster.Enc.Categories
import Raster.Enc.UnicodeToGbk
import Raster.Enc.Utf8ToGbk
import Raster.Enc.ForgedAscii
import Raster.Util.Base64
import Raster.Util.CodePoint
import Raster.Util.Utf16
import Raster.Concurrency.Observable
import Raster.Zlib.Compressor
import Raster.Buffer.CursorBase
import Raster.Buffer.Memory
import Raster.Lib.Incremental
import Raster.Zlib.Decompressor
import Raster.Lib.Ring
import Raster.Concurrency.SpinLock
import Raster.Concurrency.Baton
import Raster.Util.ProducerConsumerQueue
import Raster.Buffer.Links
import Raster.Buffer.Sharing
import Raster.Buffer.SharedChains
import Raster.Lib.Numeral
import Raster.Util.Conv
import Raster.Json.Accepted
import Raster.Json.Comments
import Raster.Util.EvictingCacheMap
import Raster.Util.Arena
