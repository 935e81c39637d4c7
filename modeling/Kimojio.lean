import Kimojio.Runtime.TaskTable
import Kimojio.Sync.TaskPool
import Kimojio.Sync.AsyncReaderWriterLock
import Kimojio.Ring.ScopeWaits
import Kimojio.Ring.Close
import Kimojio.Pipe.Ownership
import Kimojio.Channel.OneSlot
import Kimojio.Clock.SleepFuture
import Kimojio.Stream.BufferClose
import Kimojio.Json.Rejection
import Kimojio.Sync.EventWakes
import Kimojio.Resolver.ReplyRewrite
import Kimojio.Tls.Flush
import Kimojio.Tls.Delivery
import Kimojio.Runtime.Borrows
import Kimojio.Resolver.ReadFrame
import Kimojio.Stream.OwnedFdRead
import Kimojio.Buffer.Bounds
import Kimojio.Clock.Timeouts
import Kimojio.Clock.IdleAdvance
import Kimojio.CopyFile
import Kimojio.Ring.DrainFutures
import Kimojio.Pipe.InvokeSync
import Kimojio.Ring.Submission
import Kimojio.Ring.ScopeBound
import Kimojio.Tls.Failure
import Kimojio.Ring.Progress
