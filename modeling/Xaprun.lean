import Xaprun.Lib.Runs
import Xaprun.Lib.SortedMap
import Xaprun.Lib.Frames
import Xaprun.Lib.Percent
import Xaprun.Lib.Lifecycle
import Xaprun.Lib.WaitFor
import Xaprun.Lib.Monitor
import Xaprun.Lib.Footprint
import Xaprun.Lib.Fair
import Xaprun.Lib.Binary64
import Xaprun.Spec.Text
import Xaprun.Spec.Dispatch
import Xaprun.Spec.IoWrappers
import Xaprun.Spec.Requests
import Xaprun.Spec.Pieces
import Xaprun.Spec.Quoting
import Xaprun.Spec.Routing
import Xaprun.Spec.Database
import Xaprun.Spec.Locker
import Xaprun.Spec.Client
import Xaprun.Spec.Check
import Xaprun.Spec.Raising
import Xaprun.Spec.Session
import Xaprun.Spec.SendWait
import Xaprun.Spec.Reader
import Xaprun.Spec.Timed
import Xaprun.Spec.Responses
import Xaprun.Spec.WorkerPool
import Xaprun.Spec.PoolUse
import Xaprun.Spec.Destructor
import Xaprun.Spec.Workers
import Xaprun.Spec.Failing
import Xaprun.Spec.Locks
import Xaprun.Spec.Mailbox
import Xaprun.Spec.Outbox
import Xaprun.Spec.Server
import Xaprun.Spec.Pipes
import Xaprun.Spec.Traffic
import Xaprun.Spec.Remote
import Xaprun.Spec.Reply
import Xaprun.Spec.DefaultConnection
import Xaprun.Spec.Settled
import Xaprun.Sanity.Check
import Xaprun.Sanity.Reader
import Xaprun.Sanity.Remote
import Xaprun.Spec.History
import Xaprun.Spec.Settings
import Xaprun.Spec.Numerals
import Xaprun.Sanity.Rounds
import Xaprun.Sanity.Pieces
import Xaprun.Proofs.Pieces
import Xaprun.Proofs.Bodies
import Xaprun.Proofs.IoWrappers
import Xaprun.Proofs.Quoting
import Xaprun.Proofs.Database
import Xaprun.Proofs.Routing
import Xaprun.Sanity.Scan
import Xaprun.Sanity.Messages
import Xaprun.Sanity.Targets
import Xaprun.Sanity.Pool
import Xaprun.Proofs.Pool
import Xaprun.Proofs.Deletion
import Xaprun.Sanity.Destructor
import Xaprun.Proofs.Destructor
import Xaprun.Proofs.Failing
import Xaprun.Sanity.Locks
import Xaprun.Proofs.LockOrder
import Xaprun.Proofs.Races
import Xaprun.Sanity.Workers
import Xaprun.Proofs.Accounting
import Xaprun.Proofs.Conservation
import Xaprun.Proofs.Shutdown
import Xaprun.Proofs.Wakeup
import Xaprun.Proofs.Mailbox
import Xaprun.Sanity.Server
import Xaprun.Sanity.Connections
import Xaprun.Sanity.Visits
import Xaprun.Proofs.Output
import Xaprun.Proofs.NudgeSocket
import Xaprun.Proofs.ServerRuns
import Xaprun.Proofs.Service
import Xaprun.Proofs.Blocking
import Xaprun.Proofs.Atomicity
import Xaprun.Proofs.Finishing
import Xaprun.Proofs.Returns
import Xaprun.Proofs.Waking
import Xaprun.Proofs.Draining
import Xaprun.Proofs.Turns
import Xaprun.Proofs.Stopping
import Xaprun.Proofs.HalfClose
import Xaprun.Proofs.Pipes
import Xaprun.Proofs.UpdateOrder
import Xaprun.Proofs.Limits
import Xaprun.Proofs.Framing
import Xaprun.Proofs.Traffic
import Xaprun.Proofs.Serving
import Xaprun.Proofs.ClientServer
import Xaprun.Proofs.Responses
import Xaprun.Proofs.Locking
import Xaprun.Proofs.Callbacks
import Xaprun.Proofs.Raising
import Xaprun.Proofs.Decoding
import Xaprun.Proofs.Numerals
import Xaprun.Proofs.Answers
import Xaprun.Proofs.SendWait
import Xaprun.Proofs.Reader
import Xaprun.Proofs.Polling
import Xaprun.Proofs.Timeout
import Xaprun.Proofs.Remote
import Xaprun.Proofs.RemoteRuns
import Xaprun.Proofs.RemoteProgress
import Xaprun.Proofs.RemoteCalls
import Xaprun.Proofs.Hangup
import Xaprun.Proofs.Lasting
import Xaprun.Proofs.Delivery
import Xaprun.Proofs.DefaultConnection
