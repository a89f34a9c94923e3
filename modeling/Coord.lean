import Coord.Storage.CompactSteps
import Coord.Storage.ObjectFiles
import Coord.Storage.TxnOps
import Coord.Storage.DirectWrites
import Coord.Storage.LeaseRuns
import Coord.Storage.MidKey
import Coord.Raft.Determinism
import Coord.Raft.RegionTableLog
import Coord.Raft.Tso
import Coord.SplitMerge.ImportExact
import Coord.Security.Seal
import Coord.Kvt.Drain
import Coord.Kvt.Commit
import Coord.Kvt.ShippingRuns
import Coord.Approval.StoreRuns
import Coord.Auth.Roles
import Coord.Auth.Revocation
import Coord.Auth.BootstrapRuns
import Coord.Security.Transit
import Coord.Agent.IdGen
import Coord.Agent.Produce
import Coord.Agent.LockWait
import Coord.Watch.Replay
import Coord.Workflow.OutboxIndex
import Coord.Workflow.Cron
