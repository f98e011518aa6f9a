import Tigerkin.Http.KeepAlive
import Tigerkin.Http.ResponseRoundTrip
import Tigerkin.Http.ResponseDone
import Tigerkin.Http.RequestRoundTrip
import Tigerkin.Http.FieldNames
import Tigerkin.Http.RequestMethod
import Tigerkin.Http.RequestTarget
import Tigerkin.Http.UnsetFields
import Tigerkin.Http.Framing
import Tigerkin.Address.SubnetV4
import Tigerkin.Address.SubnetV6
import Tigerkin.Address.Order
import Tigerkin.Address.Lookup
import Tigerkin.Http.BodyLength
import Tigerkin.Http.ChunkSize
import Tigerkin.Http.Chunked
import Tigerkin.Http.PeerClose
import Tigerkin.Http.Servlet
import Tigerkin.Http.PoolBound
import Tigerkin.Http.QueryParam
import Tigerkin.Http.LazyParam
import Tigerkin.Timer.Delivery
import Tigerkin.Timer.Notify
import Tigerkin.Timer.Cond
import Tigerkin.Timer.Control
import Tigerkin.IOManager.Events
import Tigerkin.IOManager.Unpinned
import Tigerkin.IOManager.TimerTasks
import Tigerkin.IOManager.SelfLock
import Tigerkin.ByteArray.Overwrite
import Tigerkin.ByteArray.Capacity
import Tigerkin.ByteArray.Retry
import Tigerkin.ByteArray.WriteBuffers
import Tigerkin.ByteArray.File
import Tigerkin.ByteArray.Buffers
import Tigerkin.Hook.SocketIo
import Tigerkin.FdManager.Sections
import Tigerkin.Hook.Nonblock
import Tigerkin.Hook.Transparent
import Tigerkin.Hook.Timeouts
import Tigerkin.Hook.Sleep
import Tigerkin.Log.Formatter
import Tigerkin.Config.Load
import Tigerkin.Config.Lookup
import Tigerkin.Config.Containers
import Tigerkin.Coroutine.Affinity
import Tigerkin.Coroutine.Restart
import Tigerkin.Scheduler.WakeUp
import Tigerkin.Scheduler.Dispatch
import Tigerkin.Uri.Total
import Tigerkin.Uri.RoundTrip
import Tigerkin.Util.Trim
import Tigerkin.Stream.FixLength
import Tigerkin.Http.Client
import Tigerkin.Http.Conversation
import Tigerkin.Http.Result
import Tigerkin.Socket.RemoteAddress
