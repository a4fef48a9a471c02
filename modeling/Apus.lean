import Apus.Group.Reconfig
import Apus.Group.Removal
import Apus.Group.Departures
import Apus.Group.ConfigEntries
import Apus.Group.JoinRuns
import Apus.Group.TakeOver
import Apus.Prune.Safety
import Apus.Proxy.Sockets
import Apus.Proxy.Lookups
import Apus.Proxy.Streams
import Apus.Proxy.Loading
import Apus.Snapshot.Recovery
import Apus.Snapshot.Replies
import Apus.Kvs.Failures
import Apus.Snapshot.Safety
import Apus.Election.Recovery
import Apus.Election.StepDown
import Apus.Election.TwoMajorities
import Apus.Election.UpToDate
import Apus.Persist.Truth
import Apus.Replication.Completeness
import Apus.Log.Full
import Apus.Log.NcBuf
import Apus.Log.Forget
import Apus.Log.Order
import Apus.Commit.Wrap
import Apus.Replication.LazyCommit
import Apus.Replication.SendQueue
import Apus.Replication.Suspicion
import Apus.Handshake.Access
import Apus.Replication.Agreement
import Apus.Endpoints.Joining
import Apus.Service.Replay
