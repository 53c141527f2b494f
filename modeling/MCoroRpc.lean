import MCoroRpc.Core.Machine
import MCoroRpc.Core.Simulation
import MCoroRpc.Coder.TinyPB
import MCoroRpc.Coder.RoundTrip
import MCoroRpc.Coder.Scan
import MCoroRpc.Coder.Partial
import MCoroRpc.Coder.Bounds
import MCoroRpc.Coder.Termination
import MCoroRpc.Net.ByteQueue
import MCoroRpc.Net.TcpStream
import MCoroRpc.Net.Reading
import MCoroRpc.Net.Writing
import MCoroRpc.Rpc.Dispatcher
import MCoroRpc.Rpc.Routing
import MCoroRpc.Rpc.Provider
import MCoroRpc.Rpc.Replies
import MCoroRpc.Rpc.RpcChannel
import MCoroRpc.Rpc.Completion
import MCoroRpc.Core.Table
import MCoroRpc.Coro.Channel
import MCoroRpc.Coro.Operations
import MCoroRpc.Coro.Waiting
import MCoroRpc.Coro.Conservation
import MCoroRpc.Coro.Order
import MCoroRpc.Coro.Close
import MCoroRpc.Coro.Stranded
import MCoroRpc.Coro.Awaiters
import MCoroRpc.Coro.WaitFor
import MCoroRpc.Net.TcpService
import MCoroRpc.Rpc.RpcClient
import MCoroRpc.Rpc.Connection
import MCoroRpc.Rpc.Server
import MCoroRpc.Rpc.Stopping
import MCoroRpc.Rpc.WorkerLoop
import MCoroRpc.Zk.PendingOps
import MCoroRpc.Zk.Watchers
import MCoroRpc.Rpc.StreamPointer
import MCoroRpc.Rpc.Requests
import MCoroRpc.Rpc.Failover
import MCoroRpc.Rpc.Pool
import MCoroRpc.Rpc.Reuse
import MCoroRpc.Core.Multimap
import MCoroRpc.Selector.Epoll
import MCoroRpc.Coro.Eventloop
import MCoroRpc.Coro.EventloopPool
import MCoroRpc.Coro.Bookkeeping
import MCoroRpc.Coro.Discipline
import MCoroRpc.Net.IoAwaiter
import MCoroRpc.Coro.Task
import MCoroRpc.Coro.Cancel
import MCoroRpc.Coro.References
import MCoroRpc.Coro.Dangling
import MCoroRpc.Net.ProtocolMessage
import MCoroRpc.Selector.Registry
import MCoroRpc.Selector.Kernel
import MCoroRpc.Selector.Atomicity
import MCoroRpc.Rpc.Deadline
import MCoroRpc.Rpc.Lookups
import MCoroRpc.Core.PrefixFree
import MCoroRpc.Core.Search
import MCoroRpc.Rpc.Instances
import MCoroRpc.Rpc.Synchronous
import MCoroRpc.Net.StreamRead
import MCoroRpc.Coder.Unique
import MCoroRpc.Core.Heap
import MCoroRpc.Coro.TimerQueue
import MCoroRpc.Coro.CancelFrame
import MCoroRpc.Coro.WaitIds
import MCoroRpc.Coro.RunOnce
import MCoroRpc.Coro.Generations
import MCoroRpc.Coro.TimerLife
import MCoroRpc.Coder.Parsed
import MCoroRpc.Coder.Resync
import MCoroRpc.Coder.Sound
import MCoroRpc.Coro.Scheduling
import MCoroRpc.Coro.NextLoop
import MCoroRpc.Core.Getline
import MCoroRpc.Core.Balance
import MCoroRpc.Rpc.ServiceDiscovery
import MCoroRpc.Rpc.RoundRobin
import MCoroRpc.Rpc.Addresses
import MCoroRpc.Net.TcpConnector
import MCoroRpc.Net.WaitRelease
import MCoroRpc.Zk.Sessions
import MCoroRpc.Rpc.Recycling
import MCoroRpc.Coro.HandleIds
import MCoroRpc.Net.TcpServer
import MCoroRpc.Net.Descriptors
import MCoroRpc.Coro.Complete
import MCoroRpc.Rpc.RemoteCall
import MCoroRpc.Zk.Tree
import MCoroRpc.Zk.Providers
import MCoroRpc.Zk.Discovery
import MCoroRpc.Zk.Following
import MCoroRpc.Zk.UpToDate
import MCoroRpc.Rpc.Serving
import MCoroRpc.Selector.Closing
import MCoroRpc.Coro.Latency
import MCoroRpc.Zk.Convergence
import MCoroRpc.Net.NetAddr
import MCoroRpc.Rpc.Selection
import MCoroRpc.Rpc.RpcServer
import MCoroRpc.Net.BufferCost
