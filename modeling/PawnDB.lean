import PawnDB.Lib.LockWord
import PawnDB.Basic.RetBuf
import PawnDB.Basic.Parsing
import PawnDB.Pool.Handles
import PawnDB.Pool.Pins
import PawnDB.Table.Rows
import PawnDB.Table.LiveKeys
import PawnDB.Table.FiniteMap
import PawnDB.Table.Counters
import PawnDB.Table.Clients
import PawnDB.Table.TupleLaws
import PawnDB.Table.Absent
import PawnDB.Table.Stored
import PawnDB.Txn.HeldLocks
import PawnDB.Txn.LockHistories
import PawnDB.Worker.Effects
import PawnDB.Worker.Acknowledged
import PawnDB.Worker.TwoPhase
import PawnDB.Worker.Uncommitted
import PawnDB.Worker.Added
import PawnDB.Worker.Rejected
import PawnDB.Worker.Idle
import PawnDB.Worker.Stale
import PawnDB.System.Coupling
import PawnDB.System.Locks
import PawnDB.System.Drain
import PawnDB.System.Visibility
import PawnDB.System.Checksums
import PawnDB.System.Serializable
import PawnDB.System.Reads
import PawnDB.System.Progress
import PawnDB.Server.OwnJobs
import PawnDB.Server.Reaped
import PawnDB.Server.WorkerMap
import PawnDB.Server.OneReply
import PawnDB.Server.Routing
import PawnDB.Server.Shutdown
