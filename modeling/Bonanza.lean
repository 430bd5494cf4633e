import Bonanza.LossyMap.Regression
import Bonanza.Local.Wakeup
import Bonanza.Local.CrashConsistency
import Bonanza.Local.RingBuffer
import Bonanza.FlatBacked.Freshness
import Bonanza.FlatBacked.LeaseRecordArray
import Bonanza.Filesystem.DirectoryComponentWalker
import Bonanza.LeaseRenewing.Progress
import Bonanza.Glob.RoundTrip
import Bonanza.Search.Correctness
import Bonanza.Tag.LocalStore
import Bonanza.Visibility.Correctness
import Bonanza.Query.Correctness
import Bonanza.Modules.Selection
import Bonanza.Modules.RepoMapping
import Bonanza.Sharded.Rendezvous
import Bonanza.Object.Graph
import Bonanza.Starlark.EncodeValue
import Bonanza.Starlark.StructFields
import Bonanza.Encoding.Chain
import Bonanza.Label.RelativePath
import Bonanza.Label.Closure
import Bonanza.Evaluation.CycleHandling
import Bonanza.Scheduler.Locking
import Bonanza.Scheduler.Termination
import Bonanza.Scheduler.Expiration
import Bonanza.Scheduler.WorkerRebalancing
import Bonanza.Scheduler.Outcomes
import Bonanza.Arguments.BazelRCReader
