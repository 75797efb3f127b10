import LearningNotes.Dict.Scan
import LearningNotes.Rax.Packed
import LearningNotes.Rax.Refinement
import LearningNotes.Zset.InRange
import LearningNotes.ZsetObject.Refinement
import LearningNotes.Hll.Refinement
import LearningNotes.Cluster.ElectionSafety
import LearningNotes.Cluster.ConfigEpoch
import LearningNotes.Listpack.Refinement
import LearningNotes.Aof.Recovery
import LearningNotes.Sentinel.ElectionSafety
import LearningNotes.Replication.Fidelity
import LearningNotes.Networking.Quoting
import LearningNotes.Networking.Proxy
import LearningNotes.Cluster.Replicas
import LearningNotes.Algorithm.TokenBucket
import LearningNotes.Jdk.MyLock
import LearningNotes.Listpack.Validation
import LearningNotes.Hash.Refinement
import LearningNotes.GetKeys.Coverage
import LearningNotes.Multi.StreamCommands
import LearningNotes.Strings.Bitfield
import LearningNotes.Lists.Positions
import LearningNotes.Lists.Ranges
import LearningNotes.Sets.Intset
import LearningNotes.Quicklist.Limits
import LearningNotes.Quicklist.Append
import LearningNotes.Hll.Histogram
import LearningNotes.Strings.Lcs
import LearningNotes.Util.Glob
import LearningNotes.Replication.Wait
import LearningNotes.Networking.Timeouts
