import SearchServer.Lib.Runs
import SearchServer.Lib.Search
import SearchServer.Lib.Maps
import SearchServer.Lib.Unique
import SearchServer.Lib.NumberFormat
import SearchServer.Lib.FloatText
import SearchServer.Lib.Replies
import SearchServer.Vocabulary
import SearchServer.Base.AsyncLogging
import SearchServer.Base.Convert
import SearchServer.Base.LogStream
import SearchServer.Base.Logging
import SearchServer.Base.FileUtil
import SearchServer.Base.ThreadPool
import SearchServer.Base.TaskQueue
import SearchServer.Lib.StableSort
import SearchServer.Process.WordQuery
import SearchServer.Process.Ranking
import SearchServer.Process.Summary
import SearchServer.Process.Cache
import SearchServer.Process.MyCache
import SearchServer.Process.DoubleBuffer
import SearchServer.Process.CacheFile
import SearchServer.Process.CacheCalls
import SearchServer.Process.CacheRoundTrip
import SearchServer.Net.Buffer
import SearchServer.Net.RawBuffer
import SearchServer.Net.ByteQueue
import SearchServer.Net.Channel
import SearchServer.Net.EventLoop
import SearchServer.Net.EventLoopThread
import SearchServer.Net.TimerQueue
import SearchServer.Net.TcpConnection
import SearchServer.Net.Closing
import SearchServer.Net.Ownership
import SearchServer.Net.TcpServer
import SearchServer.Net.ConnectionLife
import SearchServer.Net.OutputStream
import SearchServer.Net.CloseOnce
import SearchServer.Net.PollersAgree
import SearchServer.Net.RegistrationRuns
import SearchServer.Net.SwapRemoval
import SearchServer.Process.Server
import SearchServer.Process.ReplyFrames
import SearchServer.Process.Requests
import SearchServer.Process.PageLibrary
import SearchServer.Process.IndexLibrary
import SearchServer.Offline.WebPage
import SearchServer.Offline.InvertIndex
import SearchServer.Offline.Weights
import SearchServer.Offline.Redundancy
import SearchServer.Offline.Weblib
import SearchServer.Offline.Feeds
import SearchServer.Offline.StoreOnDisk
import SearchServer.PageFile
import SearchServer.PageLoad
import SearchServer.IndexFile
import SearchServer.Segmentation
import SearchServer.UnitWeights
import SearchServer.StoredPages
import SearchServer.Lib.Tiling
import SearchServer.Lib.Trie
import SearchServer.Lib.BestPath
import SearchServer.Lib.OrderedDouble
import SearchServer.Segment.Unicode
import SearchServer.Segment.DictTrie
import SearchServer.Segment.MPSegment
import SearchServer.Segment.HMMSegment
import SearchServer.Segment.MixSegment
import SearchServer.Segment.Jieba
import SearchServer.Segment.KeywordExtractor
import SearchServer.Offline.Jenkins
import SearchServer.Offline.Simhasher
import SearchServer.Lib.Monitor
import SearchServer.Base.PoolThreads
import SearchServer.Base.PoolQueue
import SearchServer.Base.PoolProgress
import SearchServer.Process.Answers
import SearchServer.Process.Answered
import SearchServer.Process.Exchange
import SearchServer.Process.CachedAnswers
import SearchServer.Process.SearchSystem
import SearchServer.Base.CountDownLatch
import SearchServer.Base.Thread
import SearchServer.Base.LogFiles
import SearchServer.Pipeline
import SearchServer.Delivery
import SearchServer.Net.Dispatch
