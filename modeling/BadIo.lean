import BadIo.Machine
import BadIo.Threads
import BadIo.Mutexes
import BadIo.Fifo
import BadIo.Holders
import BadIo.IntegerType
import BadIo.Chrono
import BadIo.Native.Result
import BadIo.ExecutionContext.Unsynchronized
import BadIo.ExecutionContext.Synchronized
import BadIo.ExecutionContext.Agreement
import BadIo.ExecutionContext.Generations
import BadIo.Semaphore.Basic
import BadIo.Semaphore.Grants
import BadIo.Semaphore.Sequential
import BadIo.Semaphore.Dequeues
import BadIo.Semaphore.Waiters
import BadIo.RingBuffer
import BadIo.AllocatorAware
import BadIo.Uring.Submission
import BadIo.Uring.Submit
import BadIo.AllocatorAware.Outstanding
import BadIo.Uring.Appending
import BadIo.Uring.WaitMany
import BadIo.Uring.Concurrent
import BadIo.Uring.Concurrent.Locks
import BadIo.Uring.Concurrent.Order
import BadIo.Uring.Flushing
import BadIo.Uring.Narrowing
import BadIo.Uring.Completion
import BadIo.Uring.Pending
import BadIo.Uring.Dispatch
import BadIo.Uring.Storage
import BadIo.Utilities.Clamp
import BadIo.Uring.Requests
import BadIo.LowerBound
import BadIo.PollService
import BadIo.PollService.Pairing
import BadIo.PollService.Failures
import BadIo.EpollService.Basic
import BadIo.EpollService.InStep
import BadIo.EpollService.Stale
import BadIo.EpollService.Removal
import BadIo.EpollService.Wait
import BadIo.DeviceNumber
import BadIo.Async.EpollAccept
import BadIo.Async.PeerAddress
import BadIo.Async.Stat
import BadIo.Async.Ioring
import BadIo.Async.OpenMode
import BadIo.Async.Sleep
import BadIo.Alignment
import BadIo.UniqueFunction.Basic
import BadIo.UniqueFunction.Table
import BadIo.UniqueFunction.Swap
import BadIo.UniqueFunction.Refinement
import BadIo.UniqueFunction.Operations
import BadIo.UniqueFunction.Soundness
import BadIo.UniqueFunction.Aliasing
import BadIo.UniqueFunction.Elements
import BadIo.Semaphore.Storage
import BadIo.ExecutionContext.Storage
import BadIo.ExecutionContext.SharedStorage
import BadIo.FunctionView
import BadIo.UseAwaitable
import BadIo.Async.CoAwait
import BadIo.Awaitable
import BadIo.UniqueLock
import BadIo.UniqueLock.Exclusion
import BadIo.Main.ReadEverything
import BadIo.Main.RunUntilComplete
