import Skyc.Apue.Db.Concurrent
import Skyc.Apue.Db.Sequential
import Skyc.Linenoise.Refresh
import Skyc.Linenoise.Sessions
import Skyc.Melon.Array
import Skyc.Melon.Bignum.Euclid
import Skyc.Melon.Hash
import Skyc.Melon.Rbtree.Runs
import Skyc.Melon.Rsa
import Skyc.Melon.ThreadPool
import Skyc.Melon.Websocket
import Skyc.Nginx.ChunkedGrammar
import Skyc.Nginx.ComplexUri
import Skyc.Nginx.RoundRobin
import Skyc.Socket.HttpParser
import Skyc.Socket.ShmTalkServer
import Skyc.Socket.SortTimerLst
import Skyc.Socket.TimeHeap
import Skyc.Socket.TimeWheel
import Skyc.Utils.ArgParser
import Skyc.Utils.BusServer
import Skyc.Utils.Channels
import Skyc.Utils.CircbufQueue
import Skyc.Utils.DisjointSets
import Skyc.Utils.ListRanges
import Skyc.Utils.PcapGen
import Skyc.Utils.SinglyLinked
import Skyc.Utils.Slabs
import Skyc.Utils.Strutils
import Skyc.Utils.Workqueue.Cancel
import Skyc.Utils.Workqueue.Conservation
import Skyc.Utils.Workqueue.Wakeup
